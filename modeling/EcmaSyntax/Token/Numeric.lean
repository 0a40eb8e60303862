import EcmaSyntax.Token.Scan

/-!
# Numeric literals

Numbers in base sixteen, eight and two, after `0x`, `0o` and `0b`; octal numbers after a bare zero;
decimal numbers with a fraction and an exponent; and big integers, decimal digits before an `n`. From
the edition of 2021 on, an underscore may stand before a decimal digit of a decimal number.
-/

namespace EcmaSyntax.Scan

/-- One round of `digits`, on the digits read so far, the last first. -/
def digitsRound (found : Text) : Scan (Round Text Text) := do
  let c ← peek 0
  if CodePoint.isDecimalDigit c then
    advance 1
    return .again (c :: found)
  else if c = 0x5f && (← since 2021) then
    if !CodePoint.isDecimalDigit (← peek 1) then refuse .illegalToken
    advance 1
    return .again found
  else return .done found.reverse

/-- Reads decimal digits, and separators between them, which are left out. -/
def digits : Scan Text := loop digitsRound []

/-- Refuses a number that a name follows at once. -/
def endNumber : Scan Unit := do
  if CodePoint.isIdentifierStart (← peek 0) then refuse .illegalToken

/-- Refuses a number that a name or a digit follows at once. -/
def endDigits : Scan Unit := do
  let c ← peek 0
  if CodePoint.isIdentifierStart c || CodePoint.isDecimalDigit c then refuse .illegalToken

/-- Reads digits of which there is at least one. -/
def someDigits (test : CodePoint → Bool) : Scan Text := do
  let ds ← takeWhile test
  if ds.isEmpty then refuse .illegalToken
  return ds

def hexLiteral (start : Nat) : Scan Token := do
  let ds ← someDigits CodePoint.isHexDigit
  endNumber
  token start (.numeric (.whole (Numeral.ofDigits 16 ds)) none)

def binaryLiteral (start : Nat) : Scan Token := do
  let ds ← someDigits CodePoint.isBinaryDigit
  endDigits
  token start (.numeric (.whole (Numeral.ofDigits 2 ds)) none)

/-- Reads the digits of a number in base eight; `legacy` if no letter announced it. -/
def octalLiteral (legacy : Bool) (start : Nat) : Scan Token := do
  let ds ← someDigits CodePoint.isOctalDigit
  endDigits
  token start (.numeric (.whole (Numeral.ofDigits 8 ds)) (some legacy))

/-- Is a zero followed by this and further digits an octal number? It is if neither an eight nor a
nine comes first. -/
def isLegacyOctal : Scan Bool := do
  let source := (← read).source
  let stop := source.skipWhile CodePoint.isOctalDigit ((← index) + 1)
  return !(source.char stop = 0x38 || source.char stop = 0x39)

/-- The number of digits from which on a big integer is refused. -/
def bigIntLimit : Nat := 4300

def exponent : Scan Int := do
  let sign ← peek 0
  if sign = 0x2b || sign = 0x2d then advance 1
  if !CodePoint.isDecimalDigit (← peek 0) then refuse .illegalToken
  let ds ← digits
  let n : Int := Numeral.ofDigits 10 ds
  return if sign = 0x2d then -n else n

/-- Reads a point and the digits after it, if there is a point. -/
def fraction? : Scan (Option Text) := do
  if (← peek 0) = 0x2e then
    advance 1
    return some (← digits)
  return none

/-- Reads the letter of an exponent and the exponent after it, if there is such a letter. -/
def power? : Scan (Option Int) := do
  let mark ← peek 0
  if mark = 0x65 || mark = 0x45 then
    advance 1
    return some (← exponent)
  return none

/-- Reads the rest of a decimal number whose digits before the point are `whole`. -/
def decimalLiteral (start : Nat) (whole : Text) : Scan Token := do
  let fraction ← fraction?
  let power ← power?
  if (← peek 0) = 0x6e then
    if fraction.isSome || power.isSome then refuse .illegalToken
    if ← since 2020 then
      advance 1
      if bigIntLimit < whole.length then refuse .illegalToken
      return ← token start (.bigInt (Numeral.ofDigits 10 whole) whole)
  endNumber
  let fraction := fraction.getD []
  require (!(whole.isEmpty && fraction.isEmpty)) .invalidValue
  let value := Decimal.toDouble false ⟨whole, fraction, power.getD 0⟩
  token start (.numeric (.ofDouble value) none)

def numericLiteral : Scan Token := do
  let start ← index
  let c ← peek 0
  require (CodePoint.isDecimalDigit c || c = 0x2e) .unmetCondition
  if c = 0x2e then return ← decimalLiteral start []
  advance 1
  if c = 0x30 then
    let d ← peek 0
    if d = 0x78 || d = 0x58 then
      advance 1
      return ← hexLiteral start
    if d = 0x62 || d = 0x42 then
      advance 1
      return ← binaryLiteral start
    if d = 0x6f || d = 0x4f then
      advance 1
      return ← octalLiteral false start
    if CodePoint.isOctalDigit d && (← isLegacyOctal) then
      return ← octalLiteral true start
  decimalLiteral start (c :: (← digits))

end EcmaSyntax.Scan
