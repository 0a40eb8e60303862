import EcmaSyntax.Error
import EcmaSyntax.Tree.Store

/-!
# Walks

A `Visitor` says what becomes of each value that a walk meets. Its visits are suspended while the
parts they ask for are visited in turn: the walk keeps them on a stack of frames, so it goes as deep
as the values do. The answer to a visit is handed to the visit below it on the stack.

The walk remembers how each node is handled that it is inside of. Met again there, a node whose form
has a visit of its own is handled plainly, and one that was handled plainly already is a repetition.
A node is forgotten as soon as any visit to it ends.
-/

namespace EcmaSyntax

/-- How a node is handled. -/
inductive Handling where
  /-- By the visit that its form has of its own. -/
  | own
  /-- As any node. -/
  | plain
  /-- As one that was met inside of itself. -/
  | repeated
  deriving Repr, DecidableEq, Inhabited

namespace Walk

/-- What lies on the stack of a walk. -/
inductive Frame (κ ρ : Type) where
  | visit (v : Value)
  | answer (r : ρ)
  /-- A suspended visit, and the place of the node it is a visit to. -/
  | running (k : κ) (owner : Option Nat)
  /-- The end of what the walk remembers. -/
  | forget

end Walk

/-- What becomes of each value that a walk meets. Visits are suspended in states of type `κ`, change a
state of type `σ` that they share, and are answered by values of type `ρ`. -/
structure Visitor (κ σ ρ : Type) where
  /-- Does a form of nodes have a visit of its own? -/
  isOwn : String → Bool
  /-- What takes the place of a node on the stack. -/
  object : Handling → Nat → Node → σ → Except Fault (List (Walk.Frame κ ρ) × σ)
  /-- What takes the place of any other value on the stack. -/
  value : Value → σ → Except Fault (List (Walk.Frame κ ρ) × σ)
  /-- Goes on with a visit, given the answer to what it has asked for: either it puts a frame on the
  stack and is suspended again, or it ends. -/
  resume : κ → Option ρ → σ → Except Fault (Option (Walk.Frame κ ρ × κ) × σ)

namespace Walk

/-- A walk under way. -/
structure State (κ σ ρ : Type) where
  stack : List (Frame κ ρ)
  /-- The last answer, until a visit has taken it. -/
  last : Option ρ
  /-- How the nodes are handled that the walk is inside of, by their places. -/
  inside : Std.HashMap Nat Handling
  shared : σ

variable {κ σ ρ : Type}

/-- How to handle a node, given how it is handled by the walk already. -/
def choose (v : Visitor κ σ ρ) (form : String) : Option Handling → Handling
  | none => if v.isOwn form then .own else .plain
  | some .plain => .repeated
  | some _ => .plain

/-- What is remembered when a visit to a node ends. -/
def leave (inside : Std.HashMap Nat Handling) : Option Nat → Std.HashMap Nat Handling
  | none => inside
  | some i => inside.erase i

/-- One step of a walk. Without frames there is nothing to do. -/
def step (v : Visitor κ σ ρ) (store : Store) (s : State κ σ ρ) : Except Fault (State κ σ ρ) :=
  match s.stack with
  | [] => return s
  | .answer r :: rest => return { s with stack := rest, last := some r }
  | .forget :: rest => return { s with stack := rest, last := none, inside := ∅ }
  | .visit (.ref i) :: rest => do
    let n := store.get i
    let h := choose v n.form s.inside[i]?
    let (frames, shared) ← v.object h i n s.shared
    return { s with stack := frames ++ rest, inside := s.inside.insert i h, shared }
  | .visit w :: rest => do
    let (frames, shared) ← v.value w s.shared
    return { s with stack := frames ++ rest, shared }
  | .running k owner :: rest => do
    match ← v.resume k s.last s.shared with
    | (some (frame, k), shared) =>
      return { s with stack := frame :: .running k owner :: rest, last := none, shared }
    | (none, shared) => return { s with stack := rest, inside := leave s.inside owner, shared }

/-- Makes at most `2 ^ n` steps of a walk. -/
def run (v : Visitor κ σ ρ) (store : Store) : Nat → State κ σ ρ → Except Fault (State κ σ ρ)
  | 0, s => step v store s
  | n + 1, s => do
    let s ← run v store n s
    if s.stack.isEmpty then return s else run v store n s

/-- The state in which a walk starts. -/
def start (root : Value) (shared : σ) : State κ σ ρ := ⟨[.visit root], none, ∅, shared⟩

/-- An exponent for the number of steps. Without repetitions, a walk visits at most as many values as
there are ways to them, and each value met on a way doubles those at most. -/
def allowance (store : Store) (root : Value) : Nat := 8 + root.size + store.size

/-- Walks through a value of a store, up to the end: the last answer, and the shared state. -/
def whole (v : Visitor κ σ ρ) (store : Store) (root : Value) (shared : σ) :
    Except Failure (Option ρ × σ) := do
  let s ← (run v store (allowance store root) (start root shared)).mapError .fault
  if s.stack.isEmpty then return (s.last, s.shared) else throw .exhausted

end Walk

end EcmaSyntax
