import EcmaSyntax.Text.Entity
import EcmaSyntax.Token.Lex

/-!
# Tokens of markup

Between the brackets of a tag, names may have hyphens, strings have no escapes but entities, and few
punctuators are known. Between tags there is just text. A template, which cannot be read here, is
given as a mark.

An entity that is not well-formed, or has no such name, stands for its own text.
-/

namespace EcmaSyntax.Scan

/-- What has been read of an entity. -/
structure EntityText where
  /-- The text, with its ampersand and semicolon. -/
  text : Text
  decimal : Bool
  hexadecimal : Bool
  deriving Repr, Inhabited

/-- Adds a character that is not the semicolon. None if the text is no entity any more. -/
def EntityText.push? (e : EntityText) (c : CodePoint) : Option EntityText :=
  let text := e.text ++ [c]
  match text.length with
  | 2 => some { e with text, decimal := c = 0x23 }
  | 3 =>
    if !e.decimal then some { e with text }
    else if c = 0x78 then some { text, decimal := false, hexadecimal := true }
    else if CodePoint.isDecimalDigit c then some { e with text }
    else none
  | _ =>
    if e.decimal && !CodePoint.isDecimalDigit c then none
    else if e.hexadecimal && !CodePoint.isHexDigit c then none
    else some { e with text }

/-- The greatest number of decimal digits that are read as a number. -/
def decimalLimit : Nat := 4300

def characterOf (n : Nat) : Except Fault CodePoint :=
  if n < 0x110000 then return n
  else throw (if n < 1 <<< 31 then .invalidValue else .overflow)

/-- The character that a terminated entity stands for, if it stands for one. -/
def EntityText.character? (e : EntityText) : Except Fault (Option CodePoint) := do
  let name := (e.text.drop 1).dropLast
  if e.decimal then
    if name.length ≤ 1 then return none
    if decimalLimit < name.length - 1 then throw .invalidValue
    return some (← characterOf (Numeral.ofDigits 10 (name.drop 1)))
  if e.hexadecimal then
    if name.length ≤ 2 then return none
    return some (← characterOf (Numeral.ofDigits 16 (name.drop 2)))
  return Entity.named? name

/-- What a terminated entity stands for: a character, or its own text. -/
def closeEntity (e : EntityText) : Scan Text :=
  match e.character? with
  | .ok (some c) => return [c]
  | .ok none => return e.text
  | .error f => throw (.fault f)

/-- One round of `entity`. -/
def entityRound (quote : CodePoint) (e : EntityText) : Scan (Round EntityText Text) := do
  if ← atEnd then return .done e.text
  let c ← peek 0
  if c = quote then return .done e.text
  advance 1
  if c = 0x3b then return .done (← closeEntity { e with text := e.text ++ [c] })
  match e.push? c with
  | some e => return .again e
  | none => return .done (e.text ++ [c])

/-- Reads an entity, whose ampersand has been read, up to its semicolon, the closing quote, or a
character that cannot be part of it. -/
def entity (quote : CodePoint) : Scan Text := loop (entityRound quote) ⟨[0x26], false, false⟩

/-- One round of `markupString`, on the value read so far. -/
def markupStringRound (quote : CodePoint) (value : Text) : Scan (Round Text Text) := do
  if ← atEnd then return .done value
  let c ← take
  if c = quote then return .done value
  if c = 0x26 then return .again (value ++ (← entity quote))
  return .again (value ++ [c])

def markupString (quote : CodePoint) : Scan Text := loop (markupStringRound quote) []

def markupLex : Scan Token := do
  let start ← index
  let c ← peek 0
  if [0x3c, 0x3e, 0x2f, 0x3a, 0x3d, 0x7b, 0x7d].contains c then
    advance 1
    token start (.punctuator [c])
  else if c = 0x27 || c = 0x22 then
    advance 1
    let value ← markupString c
    token start (.string value none)
  else if c = 0x2e then
    let mark := if ← looksAt "..." then "..." else "."
    advance mark.length
    token start (.punctuator mark)
  else if c = 0x60 then token start .templateMark
  else if CodePoint.isIdentifierStart c && c ≠ 0x5c then
    advance 1
    skipWhile fun c => (CodePoint.isIdentifierPart c && c ≠ 0x5c) || c = 0x2d
    token start (.jsxIdentifier (← sliceFrom start))
  else lex

/-- One round of `markupText`, on the text read so far. -/
def markupTextRound (text : Text) : Scan (Round Text Text) := do
  if ← atEnd then return .done text
  let c ← peek 0
  if c = 0x7b || c = 0x3c then return .done text
  advance 1
  if CodePoint.isLineTerminator c then endLine c
  return .again (text ++ [c])

/-- Reads the text up to the next tag or brace. A line feed after a carriage return is left out. -/
def markupText : Scan Token := do
  let start ← index
  let text ← loop markupTextRound []
  token start (.jsxText text)

end EcmaSyntax.Scan
