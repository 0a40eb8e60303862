import EcmaSyntax.Node.Data
import EcmaSyntax.Tree.Walk

/-!
# Exports

A walk that turns a value into plain data. Where a node is met inside of itself, a note takes its
place. `Value.toData` is what this comes to for a tree.
-/

namespace EcmaSyntax.Export

/-- A suspended visit. -/
inductive Visit where
  /-- A list: the items to come, and the data of the others, the last one first. -/
  | items (rest : List Value) (found : List Data)
  /-- A dictionary: the key that was asked for, the entries to come, and those that were found, the
  last one first. -/
  | entries (key : Option Text) (rest : List (Text × Value)) (found : List (Text × Data))
  | object (attributes : List (Text × Value))
  | handOn
  | ended

/-- What takes the place of a node inside of itself. -/
def repetition : Data := .dict [("error", .text "Infinite recursion detected...")]

def isShown (e : Text × Value) : Bool := !e.2.isNull && !isHidden e.1

def resume : Visit → Option Data → Option (Walk.Frame Visit Data × Visit)
  | .items rest found, last =>
    let found := last.toList ++ found
    match rest with
    | [] => some (.answer (.list found.reverse), .ended)
    | v :: rest => some (.visit v, .items rest found)
  | .entries key rest found, last =>
    let found := match key, last with
      | some k, some d => (dataKey k, d) :: found
      | _, _ => found
    match rest with
    | [] => some (.answer (.ofEntries found.reverse), .ended)
    | (k, v) :: rest => some (.visit v, .entries (some k) rest found)
  | .object attributes, _ => some (.visit (.dict attributes), .handOn)
  | .handOn, last => last.map fun d => (.answer d, .ended)
  | .ended, _ => none

def visitor : Visitor Visit Unit Data where
  isOwn _ := false
  object h i n _ :=
    match h with
    | .repeated => return ([.answer repetition, .running .ended (some i)], ())
    | _ => return ([.running (.object n.entries) (some i)], ())
  value v _ :=
    match v with
    | .list vs => return ([.running (.items vs []) none], ())
    | .dict es => return ([.running (.entries none (es.filter isShown) []) none], ())
    | v => return ([.answer v.toData], ())
  resume k last _ := return (resume k last, ())

def ofStore (store : Store) (root : Value) : Except Failure Data := do
  let (last, _) ← Walk.whole visitor store root ()
  return last.getD .null

def ofValue (v : Value) : Except Failure Data :=
  let (root, store) := Store.ofValue v
  ofStore store root

end EcmaSyntax.Export
