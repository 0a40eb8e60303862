import EcmaSyntax.Text.CodePoint

/-!
# Indentation

A text is indented by tabs or by a number of blanks for each level. `IndentStyle.detect` guesses which
from the lines that are indented: tabs if most of them start with some, and otherwise the greatest
number of blanks that divides all indentations by blanks alone. A line without anything but white
space has no say in it.
-/

namespace EcmaSyntax

/-- How the lines of a text are indented. -/
inductive IndentStyle where
  | tabs
  /-- By a number of blanks for each level. -/
  | spaces (width : Nat)
  deriving Repr, DecidableEq, Inhabited

namespace Text

def isBlank (t : Text) : Bool := t.all CodePoint.isBlank

def margin (line : Text) : Text := line.takeWhile fun c => c = 0x20 || c = 0x09

def leadingSpaces (line : Text) : Nat := line.margin.count 0x20

def leadingTabs (line : Text) : Nat := line.margin.count 0x09

def lines (t : Text) : List Text := t.splitOn 0x0a

end Text

namespace IndentStyle

/-- The numbers of blanks by which lines are indented that have no tabs before their text. -/
def spaceIndents (lines : List Text) : List Nat :=
  ((lines.filter fun l => !l.isBlank && l.leadingTabs = 0).map Text.leadingSpaces).filter (0 < ·)

def tabIndents (lines : List Text) : Nat :=
  lines.countP fun l => !l.isBlank && 0 < l.leadingTabs

/-- The style in which a text is indented; tabs if it is not. -/
def detect (t : Text) : IndentStyle :=
  let widths := spaceIndents t.lines
  if widths.length < tabIndents t.lines || widths.isEmpty then .tabs
  else .spaces (widths.foldl Nat.gcd 0)

def indent : IndentStyle → Nat → Text
  | .tabs, level => Text.times level 0x09
  | .spaces width, level => Text.times (level * width) 0x20

/-- A line without its indentation, and the level of that. Four blanks are as wide as a tab. -/
def normalize (style : IndentStyle) (line : Text) : Text × Nat :=
  if line.isBlank then ([], 0)
  else
    let spaces := line.leadingSpaces
    let tabs := line.leadingTabs
    let level := match style with
      | .tabs => tabs + spaces / 4
      | .spaces width => (spaces + tabs * 4) / width
    (line.dropWhile CodePoint.isBlank, level)

end IndentStyle

end EcmaSyntax
