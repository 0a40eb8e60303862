import EcmaSyntax.Text.CodePoint

/-!
# Source texts and places in them

A `Source` is a text with constant-time access. Reading at its end, or past it, gives the code point
zero, so that a scanner may look ahead without asking where the end is.

A `Cursor` is a place from which scanning goes on: the offset, the number of the line, and the offset
at which that line starts. A `Mark` is a place to report, with its line and column, and a `Span` is
what lies between two marks. Columns are integers: the column of a token that starts on an earlier
line than the one it ends on is counted from the later line, and is then negative.
-/

namespace EcmaSyntax

/-- A source text. -/
structure Source where
  chars : Array CodePoint
  deriving Repr, Inhabited

namespace Source

def ofText (t : Text) : Source := ⟨t.toArray⟩

def size (s : Source) : Nat := s.chars.size

/-- The code point at an offset; zero at the end and past it. -/
def char (s : Source) (i : Nat) : CodePoint := s.chars.getD i 0

/-- The text from one offset up to another. -/
def slice (s : Source) (first last : Nat) : Text := (s.chars.extract first last).toList

def after (s : Source) (i : Nat) : Text := s.slice i s.size

/-- Does the text go on with the word `w` at an offset? -/
def hasAt (s : Source) (i : Nat) (w : String) : Bool :=
  s.slice i (i + w.length) == Text.ofString w

/-- The first offset from `i` on at which `test` fails; the size if there is none. -/
def skipWhile (s : Source) (test : CodePoint → Bool) (i : Nat) : Nat :=
  if i < s.size then if test (s.char i) then s.skipWhile test (i + 1) else i else i
termination_by s.size - i

/-- How many code points the line terminator at an offset has: a carriage return and the line feed
after it are one. -/
def terminatorLength (s : Source) (i : Nat) : Nat :=
  if s.char i = 0x0d && s.char (i + 1) = 0x0a then 2 else 1

end Source

/-- A place from which scanning goes on. -/
structure Cursor where
  index : Nat
  line : Nat
  lineStart : Nat
  deriving DecidableEq, Repr, Inhabited

namespace Cursor

/-- The start of a source; an empty one has no line at all. -/
def start (s : Source) : Cursor := ⟨0, if 0 < s.size then 1 else 0, 0⟩

/-- The column, counted from zero. -/
def column (c : Cursor) : Int := (c.index : Int) - c.lineStart

/-- The same line, `n` code points on. -/
def advance (c : Cursor) (n : Nat) : Cursor := { c with index := c.index + n }

/-- The start of the next line, `n` code points on. -/
def nextLine (c : Cursor) (n : Nat) : Cursor := ⟨c.index + n, c.line + 1, c.index + n⟩

def passTerminator (s : Source) (c : Cursor) : Cursor := c.nextLine (s.terminatorLength c.index)

end Cursor

/-- A place to report. -/
structure Mark where
  index : Nat
  line : Int
  column : Int
  deriving DecidableEq, Repr, Inhabited

def Cursor.mark (c : Cursor) : Mark := ⟨c.index, c.line, c.column⟩

/-- What lies between two places. -/
structure Span where
  first : Mark
  last : Mark
  deriving DecidableEq, Repr, Inhabited

end EcmaSyntax
