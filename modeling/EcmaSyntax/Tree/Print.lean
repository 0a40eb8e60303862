import EcmaSyntax.Node.Data
import EcmaSyntax.Number.Shortest
import EcmaSyntax.Text.Quoted
import EcmaSyntax.Tree.Walk

/-!
# Printed values

A walk that prints a value for people to read: one line for each item and each attribute, indented by
the depth at which it lies. A place in a source is printed on one line. What separates items is up to
a `Layout`, and is changed while a place is visited, so it is part of what the visits share.
-/

namespace EcmaSyntax

/-- How a value is laid out. -/
structure Layout where
  /-- How deep the current value lies. -/
  level : Nat
  indent : Text
  newline : Text
  space : Text
  deriving Repr, DecidableEq, Inhabited

namespace Layout

def standard : Layout := ⟨0, Text.times 4 0x20, "\n", []⟩

def indentation (l : Layout) (level : Nat) : Text := (List.replicate level l.indent).flatten

/-- Items between an opening and a closing mark, at the level above the current one. -/
def enclose (l : Layout) (opening closing : CodePoint) (items : List Text) : Text :=
  if items.isEmpty then [opening, closing]
  else
    let inner := l.indentation l.level
    let ending := l.newline ++ l.indentation (l.level - 1) ++ l.space ++ [closing]
    opening :: l.space ++ l.newline ++ inner
      ++ (Text.join (0x2c :: l.newline ++ l.space ++ inner) items ++ ending)

end Layout

/-- The flags of a pattern that are named when it is printed. -/
def Pattern.flagNames : List (Nat × String) :=
  [(2, "re.IGNORECASE"), (4, "re.LOCALE"), (8, "re.MULTILINE"), (16, "re.DOTALL"),
   (64, "re.VERBOSE"), (256, "re.ASCII")]

/-- A pattern as the call that makes it. Long sources are cut. -/
def Pattern.text (p : Pattern) : Text :=
  let named := Pattern.flagNames.filter fun (bit, _) => p.flags / bit % 2 = 1
  let flags : Text := if named.isEmpty then [] else
    Text.ofString ", " ++ Text.join "|" (named.map fun (_, name) => Text.ofString name)
  Text.ofString "re.compile(" ++ (Text.spelled p.source).take 200 ++ flags ++ [0x29]

namespace Print

/-- A suspended visit. -/
inductive Visit where
  | list (items : List Value)
  | dict (entries : List (Text × Value))
  /-- A list: the items to come, and the texts of the others, the last one first. -/
  | items (rest : List Value) (found : List Text)
  /-- A dictionary: the key that was asked for, the entries to come, and those that were found, the
  last one first. -/
  | entries (key : Option Text) (rest : List (Text × Value)) (found : List Text)
  | object (attributes : List (Text × Value))
  /-- The place in a source that is found at a place of the store. -/
  | location (i : Nat)
  /-- The layout to go back to. -/
  | restore (indent newline space : Text)
  | handOn
  | ended

abbrev Frame := Walk.Frame Visit Text

def scalar : Value → Text
  | .null | .ref _ => "None"
  | .bool b => if b then "True" else "False"
  | .int i => Text.ofInt i
  | .float d => d.text
  | .text t => Text.quoted t
  | .kind k => Text.quoted k.name
  | .pattern p => p.text
  | .list _ | .dict _ | .object _ _ _ _ _ => []

def nextItem (rest : List Value) (found : List Text) (l : Layout) :
    Option (Frame × Visit) × Layout :=
  match rest with
  | [] => (some (.answer (l.enclose 0x5b 0x5d found.reverse), .ended),
      { l with level := l.level - 1 })
  | v :: rest => (some (.visit v, .items rest found), l)

/-- Asks for the next entry of a dictionary, or answers with what was found. -/
def nextEntry (rest : List (Text × Value)) (found : List Text) (l : Layout) :
    Option (Frame × Visit) × Layout :=
  match rest with
  | [] => (some (.answer (l.enclose 0x7b 0x7d found.reverse), .ended),
      { l with level := l.level - 1 })
  | (k, v) :: rest => (some (.visit v, .entries (some k) rest found), l)

def resume : Visit → Option Text → Layout → Option (Frame × Visit) × Layout
  | .list vs, _, l => nextItem vs [] { l with level := l.level + 1 }
  | .dict es, _, l => nextEntry es [] { l with level := l.level + 1 }
  | .items rest found, last, l => nextItem rest (last.toList ++ found) l
  | .entries key rest found, last, l =>
    let found := match key, last with
      | some k, some t => (k ++ Text.ofString ": " ++ t) :: found
      | _, _ => found
    nextEntry rest found l
  | .object attributes, _, l => (some (.visit (.dict attributes), .handOn), l)
  | .location i, _, l =>
    (some (.visit (.ref i), .restore l.indent l.newline l.space),
      { l with indent := [], newline := [], space := [] })
  | .restore indent newline space, _, l => (none, { l with indent, newline, space })
  | .handOn, last, l => (last.map fun t => (.answer t, .ended), l)
  | .ended, _, l => (none, l)

def isShown (skip : List Text) (e : Text × Value) : Bool :=
  !e.2.isNull && !isHidden e.1 && !skip.contains e.1

def visitor (skip : List Text) : Visitor Visit Layout Text where
  isOwn form := form = "SourceLocation"
  object h i n l :=
    match h with
    | .own => return ([.running (.location i) (some i)], l)
    | .plain => return ([.running (.object n.entries) (some i)], l)
    | .repeated => return ([.answer "...", .running .ended (some i)], l)
  value v l :=
    match v with
    | .list vs => return ([.running (.list vs) none], l)
    | .dict es => return ([.running (.dict (es.filter (isShown skip))) none], l)
    | v => return ([.answer (scalar v)], l)
  resume k last l := return resume k last l

def ofStore (store : Store) (root : Value) (l : Layout) (skip : List Text) :
    Except Failure Text := do
  let (last, _) ← Walk.whole (visitor skip) store root l
  return last.getD []

def ofValue (v : Value) (l : Layout) (skip : List Text) : Except Failure Text :=
  let (root, store) := Store.ofValue v
  ofStore store root l skip

end Print

end EcmaSyntax
