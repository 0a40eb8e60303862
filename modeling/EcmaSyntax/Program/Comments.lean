import EcmaSyntax.Error
import EcmaSyntax.Grammar.Event

/-!
# Comments

Comments are attached to nodes after the run, from its events alone: a comment before a node leads it,
one behind it trails it, and one in an empty block is inside of it.

Events come in the order in which nodes end. A node that starts where its parts start takes the
comments that lead its first part over (`findLeading`), and one that ends where its last part ends
takes those that trail it (`findTrailing`); so each comment ends up with the outermost node that it
leads or trails.
-/

namespace EcmaSyntax

/-- A comment to be attached, with the place where it starts. -/
structure CommentEntry where
  comment : Node
  span : Span
  deriving Inhabited

/-- The comments of a node. -/
structure NodeComments where
  serial : Option Nat
  inner : List CommentEntry
  leading : List CommentEntry
  trailing : List CommentEntry
  deriving Inhabited

namespace Comments

/-- The comments attached so far, and those that are not: the nodes that may still give comments away,
by their number and start, and the comments that may lead or trail a node to come. -/
structure State where
  found : Array NodeComments
  /-- The innermost node first. -/
  stack : List (Nat × Nat)
  leading : List CommentEntry
  trailing : List CommentEntry
  deriving Inhabited

def State.start : State := ⟨#[], [], [], []⟩

/-- Takes the comments that lie in an empty block. The two lists of waiting comments are changed in
step, so the second must not be the shorter one. -/
def takeInner (s : State) (stop : Nat) : Except Fault (List CommentEntry × State) :=
  let isInner (e : CommentEntry) : Bool := e.span.first.index ≤ stop
  let inner := s.leading.filter isInner
  let keeps := s.leading.map fun e => !isInner e
  if (keeps.drop s.trailing.length).contains false then throw .outOfRange
  else
    let kept := (keeps ++ s.trailing.map fun _ => true).zip s.trailing
    return (inner, { s with
      leading := s.leading.filter fun e => !isInner e
      trailing := (kept.filter (·.1)).map (·.2) })

def State.of (s : State) (k : Nat) : NodeComments := s.found.getD k ⟨none, [], [], []⟩

/-- Takes the comments that trail a node which ends at an offset. -/
def findTrailing (s : State) (stop : Nat) : List CommentEntry × State :=
  if !s.trailing.isEmpty then
    let found := s.trailing.filter fun e => stop ≤ e.span.first.index
    (found, if found.isEmpty then s else { s with trailing := [] })
  else
    match s.stack with
    | [] => ([], s)
    | (k, _) :: _ =>
      let last := s.of k
      match last.trailing with
      | [] => ([], s)
      | first :: _ =>
        if stop ≤ first.span.first.index then
          (last.trailing, { s with found := s.found.setIfInBounds k { last with trailing := [] } })
        else ([], s)

/-- Takes the nodes that start at an offset or later off the stack; the last of them is the outermost. -/
def popFrom (start : Nat) : List (Nat × Nat) → Option Nat → Option Nat × List (Nat × Nat)
  | [], target => (target, [])
  | (k, first) :: rest, target =>
    if start ≤ first then popFrom start rest (some k) else (target, (k, first) :: rest)

/-- Takes the comments that lead a node which starts at an offset. -/
def findLeading (s : State) (start : Nat) : List CommentEntry × State :=
  match popFrom start s.stack none with
  | (some k, stack) =>
    let target := s.of k
    let isBefore (e : CommentEntry) : Bool := e.span.last.index ≤ start
    (target.leading.filter isBefore,
      { s with
        stack
        found := s.found.setIfInBounds k
          { target with leading := target.leading.filter fun e => !isBefore e } })
  | (none, stack) =>
    let isBefore (e : CommentEntry) : Bool := e.span.first.index ≤ start
    (s.leading.filter isBefore,
      { s with stack, leading := s.leading.filter fun e => !isBefore e })

/-- Attaches comments to a node that was finished, the `k`-th event. -/
def visitNode (s : State) (k : Nat) (n : Node) (span : Span) : Except Fault State := do
  if n.is .program && n.has "body" then return s
  let (inner, s) ←
    if n.is .blockStatement && !n.has "body" then takeInner s span.last.index else pure ([], s)
  let (trailing, s) := findTrailing s span.last.index
  let (leading, s) := findLeading s span.first.index
  return { s with
    found := s.found.setIfInBounds k ⟨n.serial, inner, leading, trailing⟩
    stack := (k, span.first.index) :: s.stack }

def isComment (n : Node) : Bool := (n.textOf "type").isAny ["LineComment", "BlockComment"]

def collected (n : Node) (range loc : Value) : Node :=
  let type := if (n.textOf "type").is "LineComment" then "Line" else "Block"
  .make "Comment"
    [("type", .word type), ("value", n.get "value"), ("range", range), ("loc", loc)]

/-- Takes one event into account. Entries keep the comment as it was met. -/
def visit (s : State) (k : Nat) (e : Event) : Except Fault State :=
  let s := { s with found := s.found.push ⟨none, [], [], []⟩ }
  if isComment e.taken then
    let entry : CommentEntry := ⟨e.taken, e.span⟩
    return { s with leading := s.leading ++ [entry], trailing := s.trailing ++ [entry] }
  else visitNode s k e.taken e.span

/-- Takes events into account, the first of them the `k`-th. -/
def visitAll (k : Nat) (s : State) : List Event → Except Fault State
  | [] => return s
  | e :: es => do visitAll (k + 1) (← visit s k e) es

def attach (events : Array Event) : Except Fault (Array NodeComments) := do
  return (← visitAll 0 .start events.toList).found

end Comments

end EcmaSyntax
