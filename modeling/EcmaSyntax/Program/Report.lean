import EcmaSyntax.Program.Comments
import EcmaSyntax.Token.Stream

/-!
# Reports

What a run has found is reported in a tree whose nodes have only attributes. A `Report` says which
attributes there are besides those that a node was made with: its place, as offsets (`range`) or as
lines and columns (`loc`), and the comments attached to it.
-/

namespace EcmaSyntax

/-- What is reported of each node. -/
structure Report where
  range : Bool
  loc : Bool
  /-- The name of the source, for places; none if it does not count as true. -/
  source : Value
  comments : Array NodeComments
  deriving Inhabited

def Mark.toValue (m : Mark) : Value :=
  .node (.make "Position" [("line", .int m.line), ("column", .int m.column), ("offset", .null)])

namespace Span

def rangeValue (s : Span) : Value := .list [.nat s.first.index, .nat s.last.index]

def locValue (s : Span) (source : Value) : Value :=
  .node (.make "SourceLocation"
    [("start", s.first.toValue), ("end", s.last.toValue), ("source", source)])

end Span

def Node.setAll (n : Node) : List (String × Value) → Node
  | [] => n
  | (name, v) :: rest => (n.set name v).setAll rest

/-- A node all of whose attributes are those that it was made with. -/
def Node.settle (n : Node) : Node := { n with fields := n.fields ++ n.extra, extra := [] }

namespace Report

def placeOf (r : Report) (source : Value) (span : Option Span) : List (String × Value) :=
  match span with
  | none => []
  | some s =>
    (if r.range then [("range", s.rangeValue)] else [])
      ++ (if r.loc then [("loc", s.locValue source)] else [])

/-- The lines and columns of a comment, which are one value wherever the comment is listed. -/
def commentLoc (r : Report) (n : Node) : Value :=
  match r.loc, n.span with
  | true, some s =>
    match (s.locValue .null).asNode? with
    | some loc => .node { loc with serial := n.serial.map fun k => 2 * (k / 2) + 1 }
    | none => .null
  | _, _ => .null

/-- A comment as it is attached: its offsets are always there. It may lead one node and trail another
one. -/
def attached (r : Report) (e : CommentEntry) : Value :=
  .node { Comments.collected e.comment e.span.rangeValue (r.commentLoc e.comment) with
    serial := e.comment.serial.map fun k => 2 * (k / 2) }

def collected (r : Report) (n : Node) : Value :=
  let range := if r.range then (n.span.map (·.rangeValue)).getD .null else .null
  .node (Comments.collected n range (r.commentLoc n))

def commentsOf (r : Report) (serial : Option Nat) : List (String × Value) :=
  match serial with
  | none => []
  | some k =>
    let found := r.comments.getD (k / 2) ⟨none, [], [], []⟩
    let given (name : String) (entries : List CommentEntry) : List (String × Value) :=
      if entries.isEmpty then [] else [(name, .list (entries.map r.attached))]
    if found.serial = some k then
      given "innerComments" found.inner ++ given "leadingComments" found.leading
        ++ given "trailingComments" found.trailing
    else []

mutual

/-- A value with all attributes in place. A value that stands in for a node is given as it is. -/
def reveal (r : Report) : Value → Value
  | .list vs => .list (revealAll r vs)
  | .dict es => .dict (revealEntries r es)
  | .object form serial span fields extra =>
    match form, revealFields r fields with
    | "", (_, v) :: _ => v
    | form, fields =>
      let n : Node := ⟨form, serial, none, fields ++ r.placeOf r.source span, []⟩
      .node ((n.setAll (revealFields r extra)).setAll (r.commentsOf serial)).settle
  | v => v

def revealAll (r : Report) : List Value → List Value
  | [] => []
  | v :: vs => reveal r v :: revealAll r vs

def revealEntries (r : Report) : List (Text × Value) → List (Text × Value)
  | [] => []
  | (k, v) :: es => (k, reveal r v) :: revealEntries r es

def revealFields (r : Report) : List (String × Value) → List (String × Value)
  | [] => []
  | (n, v) :: fs => (n, reveal r v) :: revealFields r fs

end

def listed (r : Report) (form type : String) (value : Text) (regex : Value) (start stop : Nat)
    (span : Span) : Value :=
  .node (.make form
    [("type", .word type), ("value", .text value), ("regex", regex),
     ("range", if r.range then .list [.nat start, .nat stop] else .null),
     ("loc", if r.loc then span.locValue .null else .null)])

def listedToken (r : Report) (form : String) (s : Source) (t : Token) (span : Span) : Value :=
  let regex : Value := match t.lexeme with
    | .regex pattern flags _ =>
      .node (.make "RegExp" [("pattern", .text pattern), ("flags", .text flags)])
    | _ => .null
  r.listed form t.lexeme.kindName (s.slice t.start t.stop) regex t.start t.stop span

def token (r : Report) (s : Source) (t : TokenRecord) : Value :=
  r.listedToken "TokenEntry" s t.token t.span

def entry (r : Report) (s : Source) : StreamEntry → Value
  | .token t span => r.listedToken "BufferEntry" s t span
  | .comment c =>
    r.listed "BufferEntry" (if c.block then "BlockComment" else "LineComment")
      (s.slice c.textStart c.textStop) .null c.span.first.index c.span.last.index c.span

def error (e : SyntaxError) : Value :=
  .dict [("message", .text (Text.ofString "Error: " ++ e.message)), ("index", .int e.index),
    ("lineNumber", .int e.line), ("column", .int e.column)]

end Report

end EcmaSyntax
