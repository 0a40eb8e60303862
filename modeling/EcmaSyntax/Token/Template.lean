import EcmaSyntax.Token.Quoted

/-!
# Templates

A template is read in chunks, each from a backquote or the closing brace of a substitution up to the
next substitution or the closing backquote. A chunk has its text as it is written (`raw`) and with
escapes resolved (`cooked`), where every line terminator is a line feed. Octal escapes are refused.
-/

namespace EcmaSyntax.Scan

/-- Reads an escape in a template, from the code point `c` after the backslash on. An escape `u` with
too few digits is the letter. -/
def templateEscape (c : CodePoint) : Scan CodePoint := do
  if c = 0x75 then
    if (← peek 0) = 0x7b then
      advance 1
      return ← bracedEscape
    let start ← index
    match ← hexEscape 4 with
    | some d => return d
    | none =>
      setIndex start
      return c
  else if c = 0x78 then
    match ← hexEscape 2 with
    | some d => return d
    | none => refuse .invalidHexEscape
  else match controlEscape? c with
    | some d => return d
    | none =>
      if c = 0x30 then
        if CodePoint.isDecimalDigit (← peek 0) then refuse .octalInTemplate
        return 0
      else if CodePoint.isOctalDigit c then refuse .octalInTemplate
      else return c

/-- One round of `template`, on the cooked text so far, the last code point first. The result tells
how the chunk ends: with a substitution (`false`), with the template (`true`), or not at all. -/
def templateRound (cooked : Text) : Scan (Round Text (Option Bool × Text)) := do
  if ← atEnd then return .done (none, cooked)
  let c ← take
  if c = 0x60 then return .done (some true, cooked)
  else if c = 0x24 then
    if (← peek 0) = 0x7b then
      openBrace .substitution
      advance 1
      return .done (some false, cooked)
    else return .again (c :: cooked)
  else if c = 0x5c then
    let d ← take
    if CodePoint.isLineTerminator d then
      endLine d
      return .again cooked
    else return .again ((← templateEscape d) :: cooked)
  else if CodePoint.isLineTerminator c then
    endLine c
    return .again (0x0a :: cooked)
  else return .again (c :: cooked)

/-- Reads a chunk of a template. One that does not open the template closes a brace. -/
def template : Scan Token := do
  let source := (← read).source
  let start ← index
  let head := (← peek 0) = 0x60
  advance 1
  match ← loop templateRound [] with
  | (none, _) => refuse .illegalToken
  | (some tail, cooked) =>
    if !head then closeBrace
    let stop := (← index) - (if tail then 1 else 2)
    token start (.template (source.slice (start + 1) stop) cooked.reverse head tail)

end EcmaSyntax.Scan
