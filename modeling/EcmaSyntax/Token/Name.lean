import EcmaSyntax.Token.Scan

/-!
# Names

Identifiers, reserved words and private names. A name without escapes is a slice of the source
(`plainName`); one with a backslash in it, or a surrogate, is read code point by code point
(`spelledName`). A reserved word must not be spelled with escapes.
-/

namespace EcmaSyntax.Scan

/-- Reads exactly `count` hexadecimal digits for the code point they denote. If there are fewer, those
are read all the same. -/
def hexEscape (count : Nat) : Scan (Option CodePoint) := do
  let source := (← read).source
  let start ← index
  let stop := min (source.skipWhile CodePoint.isHexDigit start) (start + count)
  setIndex stop
  return if stop = start + count then some (Numeral.ofDigits 16 (source.slice start stop)) else none

/-- Reads hexadecimal digits and a closing brace, for the code point that the digits denote. -/
def bracedEscape : Scan CodePoint := do
  if (← peek 0) = 0x7d then refuse .illegalToken
  let code := Numeral.ofDigits 16 (← takeWhile CodePoint.isHexDigit)
  if ← atEnd then refuse .illegalToken
  let close ← take
  if 0x10ffff < code || close ≠ 0x7d then refuse .illegalToken
  return code

/-- Reads the part of an escape in a name after the backslash. The code point of an escape without
braces must pass `test`. -/
def nameEscape (test : CodePoint → Bool) : Scan CodePoint := do
  if (← peek 0) ≠ 0x75 then refuse .illegalToken
  advance 1
  if (← peek 0) = 0x7b then
    advance 1
    bracedEscape
  else
    match ← hexEscape 4 with
    | some c => if c = 0x5c || !test c then refuse .illegalToken else return c
    | none => refuse .illegalToken

/-- One round of `spelledName`, on the name read so far, the last code point first. -/
def spelledRound (name : Text) : Scan (Round Text Text) := do
  if ← atEnd then return .done name.reverse
  let c ← peek 0
  if !CodePoint.isIdentifierPart c then return .done name.reverse
  advance 1
  if c = 0x5c then return .again ((← nameEscape CodePoint.isIdentifierPart) :: name)
  else return .again (c :: name)

/-- Reads a name code point by code point. What stands first is part of it in any case. -/
def spelledName : Scan Text := do
  let c ← take
  let first ← if c = 0x5c then nameEscape CodePoint.isIdentifierStart else pure c
  loop spelledRound [first]

/-- Reads a name as a slice of the source, or code point by code point if need be. What stands first
is part of it in any case. -/
def plainName : Scan Text := do
  let source := (← read).source
  let start ← index
  let isSpecial := fun c => c = 0x5c || CodePoint.isSurrogate c
  let stop := source.skipWhile (fun c => CodePoint.isIdentifierPart c && !isSpecial c) (start + 1)
  if stop < source.size && isSpecial (source.char stop) then spelledName
  else
    setIndex stop
    return source.char start :: source.slice (start + 1) stop

/-- The lexeme that a name is: a reserved word or an identifier. -/
def nameLexeme (name : Text) : Lexeme :=
  if name.length = 1 then .identifier name
  else if Word.isKeyword name then .keyword name
  else if name.is "null" then .null
  else if name.is "true" || name.is "false" then .boolean name
  else .identifier name

def identifier : Scan Token := do
  let start ← index
  let name ← if (← peek 0) = 0x5c then spelledName else plainName
  let lexeme := nameLexeme name
  let stop ← index
  if !lexeme.isIdentifier && start + name.length ≠ stop then
    setIndex start
    tolerate .escapedReservedWord
    setIndex stop
  token start lexeme

def privateName : Scan Token := do
  let start ← index
  advance 1
  if ← atEnd then refuse .illegalToken
  if !CodePoint.isIdentifierStart (← peek 0) then refuse .illegalToken
  let name ← plainName
  token start (.privateName (0x23 :: name))

end EcmaSyntax.Scan
