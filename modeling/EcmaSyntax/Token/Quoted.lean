import EcmaSyntax.Token.Name

/-!
# String literals

A string ends with the quote it starts with, on the same line unless a backslash stands before the
end of the line. The value is a sequence of code points: an escape for half of a surrogate pair
stays one half.
-/

namespace EcmaSyntax.Scan

/-- The control that a letter stands for after a backslash. -/
def controlEscape? (c : CodePoint) : Option CodePoint :=
  if c = 0x6e then some 0x0a
  else if c = 0x72 then some 0x0d
  else if c = 0x74 then some 0x09
  else if c = 0x62 then some 0x08
  else if c = 0x66 then some 0x0c
  else if c = 0x76 then some 0x0b
  else none

/-- Reads the rest of an octal escape that starts with the digit `c`: whether it is one at all, a
zero alone being none, and its value. Three digits are read only if the first is below four. -/
def octalEscape (c : CodePoint) : Scan (Bool × CodePoint) := do
  let one := CodePoint.digitValue c
  let d ← peek 0
  if !CodePoint.isOctalDigit d then return (c ≠ 0x30, one)
  advance 1
  let two := one * 8 + CodePoint.digitValue d
  let e ← peek 0
  if c ≤ 0x33 && CodePoint.isOctalDigit e then
    advance 1
    return (true, two * 8 + CodePoint.digitValue e)
  return (true, two)

/-- A string while it is read: its value so far, the last code point first, and whether an octal
escape was among it. -/
structure Quoted where
  value : Text
  octal : Bool

def Quoted.push (q : Quoted) (c : CodePoint) : Quoted := { q with value := c :: q.value }

/-- Reads an escape in a string, from the code point `c` after the backslash on. -/
def stringEscape (q : Quoted) (c : CodePoint) : Scan Quoted := do
  if c = 0x75 then
    if (← peek 0) = 0x7b then
      advance 1
      return q.push (← bracedEscape)
    match ← hexEscape 4 with
    | some d => return q.push d
    | none => refuse .illegalToken
  else if c = 0x78 then
    match ← hexEscape 2 with
    | some d => return q.push d
    | none => refuse .invalidHexEscape
  else match controlEscape? c with
    | some d => return q.push d
    | none =>
      if c = 0x38 || c = 0x39 then
        tolerate .illegalToken
        return q.push c
      else if CodePoint.isOctalDigit c then
        let (octal, d) ← octalEscape c
        return { value := d :: q.value, octal := octal || q.octal }
      else return q.push c

/-- One round of `stringLiteral`; the result tells if the closing quote was found. -/
def stringRound (quote : CodePoint) (q : Quoted) : Scan (Round Quoted (Bool × Quoted)) := do
  if ← atEnd then return .done (false, q)
  let c ← take
  if c = quote then return .done (true, q)
  else if c = 0x5c then
    let d ← take
    if CodePoint.isLineTerminator d then
      endLine d
      return .again q
    else return .again (← stringEscape q d)
  else if CodePoint.isLineTerminator c then return .done (false, q)
  else return .again (q.push c)

def stringLiteral : Scan Token := do
  let start ← index
  let quote ← peek 0
  require (quote = 0x27 || quote = 0x22) .unmetCondition
  advance 1
  let (closed, q) ← loop (stringRound quote) ⟨[], false⟩
  if !closed then
    setIndex start
    refuse .illegalToken
  token start (.string q.value.reverse (some q.octal))

end EcmaSyntax.Scan
