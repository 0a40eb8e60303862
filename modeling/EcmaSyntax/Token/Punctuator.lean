import EcmaSyntax.Token.Scan

/-!
# Punctuators

`Punctuator.marks` lists every mark with the edition that introduced it, longer marks first, so that
the first one found at a place is the longest one there. A question mark and a point are no mark of
their own before a digit, where the point belongs to a number.
-/

namespace EcmaSyntax

namespace Punctuator

/-- Every mark with the first edition that has it, longer ones first. -/
def marks : List (String × Nat) :=
  [(">>>=", 0),
   ("...", 0), ("??=", 2021), ("===", 0), ("!==", 0), (">>>", 0), ("<<=", 0), (">>=", 0),
   ("**=", 0), ("&&=", 2021), ("||=", 2021),
   ("??", 2020), ("?.", 2020), ("==", 0), ("!=", 0), ("+=", 0), ("-=", 0), ("*=", 0), ("/=", 0),
   ("++", 0), ("--", 0), ("<<", 0), (">>", 0), ("^=", 0), ("%=", 0), ("<=", 0), (">=", 0),
   ("=>", 0), ("**", 0), ("&&", 0), ("||", 0), ("&=", 0), ("|=", 0),
   ("(", 0), ("\x7b", 0), (".", 0), ("\x7d", 0), (")", 0), (";", 0), (",", 0), ("[", 0), ("]", 0),
   (":", 0), ("~", 0), ("?", 0), ("<", 0), (">", 0), ("=", 0), ("!", 0), ("+", 0), ("-", 0),
   ("*", 0), ("%", 0), ("^", 0), ("/", 0), ("&", 0), ("|", 0)]

/-- Does the mark `m` stand at an offset? -/
def standsAt (s : Source) (i : Nat) (m : String) : Bool :=
  s.hasAt i m && !(m == "?." && CodePoint.isDecimalDigit (s.char (i + 2)))

/-- The longest mark at an offset that the edition has. -/
def longestAt? (s : Source) (edition i : Nat) : Option String :=
  (marks.find? fun (m, since) => since ≤ edition && standsAt s i m).map Prod.fst

end Punctuator

/-- Reads a punctuator, and keeps account of braces. -/
def Scan.punctuator : Scan Token := do
  let start ← index
  let setting ← read
  match Punctuator.longestAt? setting.source setting.edition start with
  | none => refuse .illegalToken
  | some m =>
    advance m.length
    if m == "\x7b" then openBrace .block
    if m == "\x7d" then closeBrace
    token start (.punctuator m)

end EcmaSyntax
