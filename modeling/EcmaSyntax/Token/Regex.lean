import EcmaSyntax.Token.Name

/-!
# Regular expression literals

A literal is a body between slashes and flags after it. The body is checked as a pattern once its
Unicode escapes are resolved: `Scan.resolveEscapes` writes the code point that an escape denotes, or
a stand-in for it outside the basic plane, and `joinSurrogates` puts the same stand-in for a pair of
surrogates.
-/

namespace EcmaSyntax.Scan

/-- One round of `regexBody`; the state tells if the cursor is inside a class, where a slash does not
end the body. -/
def regexBodyRound (inClass : Bool) : Scan (Round Bool Bool) := do
  if ← atEnd then return .done false
  let c ← take
  if c = 0x5c then
    let d ← take
    if CodePoint.isLineTerminator d then refuse .unterminatedPattern
    return .again inClass
  else if CodePoint.isLineTerminator c then refuse .unterminatedPattern
  else if inClass then return .again (c ≠ 0x5d)
  else if c = 0x2f then return .done true
  else return .again (c = 0x5b)

def regexBody : Scan Text := do
  let start ← index
  require ((← peek 0) = 0x2f) .unmetCondition
  advance 1
  let closed ← loop regexBodyRound false
  if !closed then refuse .unterminatedPattern
  return (← read).source.slice (start + 1) ((← index) - 1)

/-- One round of `regexFlags`, on the flags so far, the last first. Escapes are no part of flags, but
are read as what they denote if errors are tolerated. -/
def regexFlagsRound (flags : Text) : Scan (Round Text Text) := do
  if ← atEnd then return .done flags.reverse
  let c ← peek 0
  if !CodePoint.isIdentifierPart c then return .done flags.reverse
  advance 1
  if c = 0x5c && !(← atEnd) then
    if (← peek 0) = 0x75 then
      advance 1
      let start ← index
      let flag ← hexEscape 4
      if flag.isNone then setIndex start
      tolerate .illegalToken
      return .again (flag.getD 0x75 :: flags)
    else
      tolerate .illegalToken
      return .again flags
  else return .again (c :: flags)

def regexFlags : Scan Text := loop regexFlagsRound []

/-- What stands in a pattern for a code point outside the basic plane. -/
def astralStandIn : CodePoint := 0xffff

/-- The value of the Unicode escape at the front of a text, and its length. -/
def unicodeEscape? : Text → Option (Nat × Nat)
  | 0x5c :: 0x75 :: 0x7b :: rest =>
    let ds := rest.takeWhile CodePoint.isHexDigit
    if !ds.isEmpty && (rest.drop ds.length).head? = some 0x7d then
      some (Numeral.ofDigits 16 ds, ds.length + 4)
    else none
  | 0x5c :: 0x75 :: rest =>
    let ds := (rest.take 4).takeWhile CodePoint.isHexDigit
    if ds.length = 4 then some (Numeral.ofDigits 16 ds, 6) else none
  | _ => none

/-- The values of the Unicode escapes in a text, after `skip` code points, and the text with each of
them replaced by what it stands for. -/
def resolveEscapes : Nat → Text → List Nat × Text
  | _, [] => ([], [])
  | skip + 1, _ :: t => resolveEscapes skip t
  | 0, c :: t =>
    match unicodeEscape? (c :: t) with
    | none =>
      let (values, rest) := resolveEscapes 0 t
      (values, c :: rest)
    | some (value, length) =>
      let (values, rest) := resolveEscapes (length - 1) t
      (value :: values, (if value ≤ 0xffff then value else astralStandIn) :: rest)

/-- A text with the stand-in for every pair of surrogates. -/
def joinSurrogates : Text → Text
  | [] => []
  | [c] => [c]
  | c :: d :: t =>
    if CodePoint.isLeadSurrogate c && CodePoint.isTrailSurrogate d then
      astralStandIn :: joinSurrogates t
    else c :: joinSurrogates (d :: t)

/-- The flags of a pattern that the letters of a literal ask for; an `m` hides an `i`. -/
def patternFlags (flags : Text) : Nat :=
  if flags.contains 0x6d then Pattern.Flag.multiLine.bit
  else if flags.contains 0x69 then Pattern.Flag.ignoreCase.bit
  else 0

def checkRegex (body flags : Text) : Scan (Option Pattern) := do
  let (values, resolved) := resolveEscapes 0 body
  for value in values do
    if 0x10ffff < value then tolerate .invalidPattern
  match Pattern.compile? (joinSurrogates resolved) (patternFlags flags) with
  | some p => return some p
  | none =>
    tolerate .invalidPattern
    return none

def regex : Scan Token := do
  let start ← index
  let body ← regexBody
  let flags ← regexFlags
  let compiled ← checkRegex body flags
  token start (.regex body flags compiled)

end EcmaSyntax.Scan
