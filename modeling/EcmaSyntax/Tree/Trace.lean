import EcmaSyntax.Node.Data
import EcmaSyntax.Tree.Walk

/-!
# Traces

A walk that notes which values it meets. For each form of nodes, and for each sort of scalars, one may
choose whether and how the parts are visited; what is not chosen is visited silently.
-/

namespace EcmaSyntax.Trace

/-- How the values of one sort are visited. Each visit is noted. -/
inductive Mode where
  /-- The attributes are visited in a walk of their own, and there is no answer. -/
  | apart
  /-- The attributes are not visited, and there is no answer. -/
  | skip
  /-- As any node. -/
  | plain
  /-- The attributes are not visited, and the node is the answer. -/
  | leaf
  /-- The attributes are visited, and the end of that is noted too. -/
  | inner
  deriving Repr, DecidableEq, Inhabited

/-- A part of a visit that is noted by itself. -/
inductive Phase where
  | whole
  | enter
  | exit
  deriving Repr, DecidableEq, Inhabited

/-- The sort of a value: for a node it is its form. -/
inductive Species where
  | null
  | bool
  | int
  | float
  | text
  | pattern
  | list
  | dict
  | node (form : String)
  deriving Repr, DecidableEq, Inhabited

/-- What is noted of a visit. -/
inductive Note where
  | node (form : String) (type : Value) (phase : Phase)
  | scalar (species : Species) (v : Value) (phase : Phase)
  deriving Inhabited

def Species.of (store : Store) : Value → Species
  | .null => .null
  | .bool _ => .bool
  | .int _ => .int
  | .float _ => .float
  | .text _ | .kind _ => .text
  | .pattern _ => .pattern
  | .list _ => .list
  | .dict _ => .dict
  | .ref i => .node (store.get i).form
  | .object form _ _ _ _ => .node form

/-- A suspended visit. -/
inductive Visit where
  /-- Values to be visited, and what is answered after that. -/
  | parts (rest : List Value) (whole : Value)
  /-- A node that is visited plainly. -/
  | object (i : Nat) (attributes : List (Text × Value))
  /-- A note to be made, and what is answered. -/
  | leaf (note : Note) (whole : Value)
  /-- A note to be made, and attributes to be visited, with a note after that. -/
  | inner (enter : Note) (attributes : List (Text × Value)) (exit : Note) (whole : Value)
  | ended

abbrev Frame := Walk.Frame Visit Value

/-- What a walk has noted, the last first. -/
abbrev Log := List Note

def resume : Visit → Log → Option (Frame × Visit) × Log
  | .parts [] whole, log => (some (.answer whole, .ended), log)
  | .parts (v :: rest) whole, log => (some (.visit v, .parts rest whole), log)
  | .object i attributes, log => (some (.visit (.dict attributes), .parts [] (.ref i)), log)
  | .leaf note whole, log => (some (.answer whole, .ended), note :: log)
  | .inner enter attributes exit whole, log =>
    (some (.visit (.dict attributes), .leaf exit whole), enter :: log)
  | .ended, log => (none, log)

/-- The modes that were chosen, by the sorts of values; `Object` stands for all nodes of other
forms. -/
abbrev Modes := List (Species × Mode)

/-- The plain visit to a node, without its owner, unless a mode is chosen for it. The frames are those
of the visit, the last of them the visit that ends when all ends. -/
def plainVisit (modes : Modes) (i : Nat) (n : Node) (owner : Option Nat) (log : Log) :
    List Frame × Log :=
  let note := Note.node n.form (n.get "type")
  let silent : Frame := .running (.object i n.entries) owner
  match modes.lookup (.node "Object") with
  | none => ([silent], log)
  | some .skip => ([.visit .null], note .whole :: log)
  | some .leaf => ([.running (.leaf (note .whole) (.ref i)) owner], log)
  | some .inner =>
    ([.running (.inner (note .enter) n.entries (note .exit) (.ref i)) owner], log)
  | some .apart | some .plain => ([silent], note .whole :: log)

def ownVisit (modes : Modes) (m : Mode) (i : Nat) (n : Node) (log : Log) : List Frame × Log :=
  let note := Note.node n.form (n.get "type")
  match m with
  | .apart =>
    let (frames, log) := plainVisit modes i n none (note .whole :: log)
    (.forget :: frames ++ [.forget, .visit .null], log)
  | .skip => ([.visit .null], note .whole :: log)
  | .plain => plainVisit modes i n (some i) (note .whole :: log)
  | .leaf => ([.running (.leaf (note .whole) (.ref i)) (some i)], log)
  | .inner =>
    ([.running (.inner (note .enter) n.entries (note .exit) (.ref i)) (some i)], log)

/-- The visit to a scalar in a mode. A scalar has no attributes. -/
def scalarVisit (m : Mode) (species : Species) (v : Value) (log : Log) :
    Except Fault (List Frame × Log) :=
  let note := Note.scalar species v .whole
  match m with
  | .skip => return ([.visit .null], note :: log)
  | .leaf => return ([.running (.leaf note v) none], log)
  | .apart | .plain | .inner => throw .missingAttribute

def visitor (store : Store) (modes : Modes) : Visitor Visit Log Value where
  isOwn form := (modes.lookup (.node form)).isSome
  object h i n log :=
    match h, modes.lookup (.node n.form) with
    | .repeated, _ => throw .recursion
    | .own, some m => return ownVisit modes m i n log
    | _, _ => return plainVisit modes i n (some i) log
  value v log :=
    match v with
    | .list vs => return ([.running (.parts vs v) none], log)
    | .dict es =>
      return ([.running (.parts ((es.filter fun e => !isHidden e.1).map (·.2)) v) none], log)
    | v =>
      let species := Species.of store v
      match modes.lookup species with
      | none => return ([.answer v], log)
      | some m => scalarVisit m species v log
  resume k _ log := return resume k log

/-- Walks through a value of a store: the answer, and what was noted, in order. -/
def ofStore (store : Store) (root : Value) (modes : Modes) : Except Failure (Value × List Note) := do
  let (last, log) ← Walk.whole (visitor store modes) store root []
  return (last.getD .null, log.reverse)

end EcmaSyntax.Trace
