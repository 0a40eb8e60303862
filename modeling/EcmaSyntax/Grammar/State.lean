import EcmaSyntax.Grammar.Event
import EcmaSyntax.Token.Lex

/-!
# Parsing

A `Parse` reads tokens with one token of lookahead. It knows what a scan knows, and which extensions
of the language are on; it keeps the state of the scan, the lookahead, the `Context` that decides
what is allowed here, and the log of tokens and events.

Two marks go with the lookahead: `startMark`, where it starts, and `lastMark`, where the token before
it ends. A node starts at the first and ends at the second.
-/

namespace EcmaSyntax

/-- What is allowed at a place. -/
structure Context where
  isModule : Bool
  allowAwait : Bool
  /-- May `in` be an operator here? -/
  allowIn : Bool
  allowStrictDirective : Bool
  /-- May `yield` be a name here? -/
  allowYield : Bool
  /-- Can what was read be assigned to? -/
  isTarget : Bool
  /-- Can what was read be a parameter? -/
  isBinding : Bool
  inFunction : Bool
  inLoop : Bool
  inSwitch : Bool
  strict : Bool
  /-- The labels of the statements around, the innermost first. -/
  labels : List Text
  /-- The first initializer that only a pattern may have. -/
  coverError : Option Token
  deriving Repr, Inhabited

def Context.start : Context where
  isModule := false
  allowAwait := false
  allowIn := true
  allowStrictDirective := true
  allowYield := true
  isTarget := false
  isBinding := false
  inFunction := false
  inLoop := false
  inSwitch := false
  strict := false
  labels := []
  coverError := none

/-- What a parse is given. -/
structure ParseSetting extends Setting where
  /-- Are elements of markup expressions? -/
  jsx : Bool
  classFields : Bool
  delegate : Delegate

/-- What parsing changes. -/
structure ParseState where
  scan : ScanState
  lookahead : Token
  /-- Does a line end between the last token and the lookahead? -/
  newline : Bool
  context : Context
  startMark : Mark
  lastMark : Mark
  tokens : Array TokenRecord
  events : Array Event
  deriving Inhabited

/-- A reader of tokens. -/
abbrev Parse := ReaderT ParseSetting (EStateM Failure ParseState)

/-- The cause for refusing a token where it stands. -/
def Token.unexpected (t : Token) (strict : Bool) : Cause :=
  match t.lexeme with
  | .eof => .unexpectedEnd
  | .identifier _ => .unexpectedIdentifier
  | .numeric _ _ | .bigInt _ _ => .unexpectedNumber
  | .string _ _ => .unexpectedString
  | .template raw _ _ _ => .unexpectedTemplate raw
  | .templateMark => .unexpectedTemplate []
  | .keyword w =>
    if Word.isFutureReserved w then .unexpectedReserved
    else if strict && Word.isStrictReserved w then .strictReservedWord
    else .unexpectedToken w
  | l => .unexpectedToken l.valueText

/-- In strict code, some names are keywords. -/
def Token.reserve (t : Token) : Token :=
  match t.lexeme with
  | .identifier name =>
    if Word.isStrictReserved name then { t with lexeme := .keyword name } else t
  | _ => t

/-- The place where a token starts. The line of a token is the one it ends on: if it starts before
that line, then it is taken to be on the line before, which starts at `lineStart`. -/
def Token.startMark (t : Token) (lineStart : Nat) : Mark :=
  let column : Int := (t.start : Int) - t.lineStart
  if column < 0 then ⟨t.start, (t.line : Int) - 1, column + lineStart⟩
  else ⟨t.start, t.line, column⟩

def Comment.node (c : Comment) (s : Source) : Node :=
  .make (if c.block then "BlockComment" else "LineComment")
    [("type", .kind (if c.block then .blockComment else .lineComment)),
     ("value", .text (s.slice c.textStart c.textStop))]

namespace Parse

def scan {α : Type} (m : Scan α) : Parse α := fun setting s =>
  match m setting.toSetting s.scan with
  | .ok a t => .ok a { s with scan := t }
  | .error e t => .error e { s with scan := t }

/-- Repeats `body` while it asks for another round. -/
def loop {σ β : Type} (body : σ → Parse (Round σ β)) (s : σ) : Parse β := do
  rounds body ((← read).source.size + 2) s

/-- Reads items until `stop` holds. -/
def manyUntil {α : Type} (stop : Parse Bool) (item : Parse α) : Parse (List α) :=
  loop (fun found => do
    if ← stop then return .done found.reverse
    return .again ((← item) :: found)) []

/-! ### Context -/

def context : Parse Context := do return (← get).context

def setContext (f : Context → Context) : Parse Unit :=
  modify fun s => { s with context := f s.context }

/-- Runs `p` in a context changed by `enter`. Afterwards `leave` joins the context before it with the
one that it leaves. -/
def within {α : Type} (enter : Context → Context) (leave : Context → Context → Context)
    (p : Parse α) : Parse α := do
  let before ← context
  setContext enter
  let a ← p
  setContext (leave before)
  return a

/-- What was read can be neither a parameter nor assigned to. -/
def notTarget : Parse Unit := setContext fun c => { c with isTarget := false, isBinding := false }

def strict : Parse Bool := do return (← context).strict

/-- Is the edition of the language at least `year`? -/
def since (year : Nat) : Parse Bool := do return year ≤ (← read).edition

/-! ### Errors -/

def fail {α : Type} (e : SyntaxError) : Parse α := throw (.refused e)

/-- Records an error if errors are tolerated, and refuses the source otherwise. -/
def forgive (e : SyntaxError) : Parse Unit := do
  if (← read).tolerant then
    modify fun s => { s with scan := { s.scan with errors := s.scan.errors.push e } }
  else fail e

/-- An error behind the last token. -/
def errorBehind (cause : Cause) : Parse SyntaxError := do
  let last := (← get).lastMark
  return ⟨last.index, last.line, last.column + 1, cause⟩

/-- An error at a token. Its column is counted on the line of the last token. -/
def errorAt (t : Token) (cause : Cause) : Parse SyntaxError := do
  let last := (← get).lastMark
  return ⟨t.start, t.line, (t.start : Int) - ((last.index : Int) - last.column) + 1, cause⟩

/-- Refuses the source behind the last token. -/
def refuse {α : Type} (cause : Cause) : Parse α := do fail (← errorBehind cause)

/-- Tolerates an error behind the last token, on the line of the cursor. -/
def tolerate (cause : Cause) : Parse Unit := do
  let e ← errorBehind cause
  forgive { e with line := (← get).scan.cursor.line }

def refuseAt {α : Type} (t : Token) (cause : Cause) : Parse α := do fail (← errorAt t cause)

def tolerateAt (t : Token) (cause : Cause) : Parse Unit := do forgive (← errorAt t cause)

def unexpected {α : Type} (t : Token) : Parse α := do refuseAt t (t.unexpected (← strict))

/-- Tolerates a token that should not be there. -/
def tolerateToken (t : Token) : Parse Unit := do tolerateAt t (t.unexpected (← strict))

/-- Fails with a fault unless a condition holds. -/
def require (condition : Bool) (f : Fault) : Parse Unit := do
  unless condition do throw (.fault f)

/-- Fails with a fault if a node has no attributes to look at. -/
def requireNode (n : Node) : Parse Unit := require (!n.isStandIn) .missingAttribute

/-! ### Finished nodes -/

/-- Logs a node as finished, and gives what takes its place. -/
def log (isComment : Bool) (n : Node) (span : Span) : Parse Node := do
  let e := Event.make (← read).delegate (← get).events.size isComment n span
  modify fun s => { s with events := s.events.push e }
  return e.taken

/-- Finishes a node that starts at a mark and ends with the last token. -/
def finish (start : Mark) (n : Node) : Parse Node := do log false n ⟨start, (← get).lastMark⟩

def here : Parse Mark := do return (← get).startMark

def finishFrom (t : Token) (n : Node) : Parse Node := finish (t.startMark 0) n

/-! ### Tokens -/

def peek : Parse Token := do return (← get).lookahead

def cursorMark : Parse Mark := do return (← get).scan.cursor.mark

def passTrivia : Parse Unit := do
  for c in ← scan Scan.trivia do
    discard <| log true (c.node (← read).source) c.span

def record (t : Token) : Parse Unit :=
  modify fun s =>
    { s with tokens := s.tokens.push ⟨t, ⟨s.startMark, s.scan.cursor.mark⟩⟩ }

/-- Takes the last record back. -/
def unrecord : Parse Unit := modify fun s => { s with tokens := s.tokens.pop }

/-- The last token ends at the cursor. -/
def markLast : Parse Unit := modify fun s => { s with lastMark := s.scan.cursor.mark }

def setLookahead (t : Token) : Parse Unit := modify fun s => { s with lookahead := t }

def next : Parse Token := do
  let token ← peek
  markLast
  passTrivia
  modify fun s =>
    if s.scan.cursor.index = s.startMark.index then s
    else { s with startMark := s.scan.cursor.mark }
  let found ← scan Scan.lex
  let found := if ← strict then found.reserve else found
  modify fun s => { s with lookahead := found, newline := token.line ≠ found.line }
  unless found.lexeme = .eof do record found
  return token

def skip : Parse Unit := discard next

/-- Reads a regular expression in place of the lookahead, at the cursor. -/
def nextRegex : Parse Token := do
  passTrivia
  let token ← scan Scan.regex
  unrecord
  record token
  setLookahead token
  skip
  return token

def rawOf (t : Token) : Parse Text := do return (← read).source.slice t.start t.stop

def peekBeyond : Parse Token := scan <| Scan.lookahead do
  discard Scan.trivia
  Scan.lex

def sees (mark : String) : Parse Bool := do return (← peek).lexeme.isMark mark

def seesAny (marks : List String) : Parse Bool := do return marks.any (← peek).lexeme.isMark

def seesKeyword (word : String) : Parse Bool := do return (← peek).lexeme.isKeyword word

def seesKeywords (words : List String) : Parse Bool := do
  return words.any (← peek).lexeme.isKeyword

/-- Is the lookahead a name that is a keyword only in its place? -/
def seesName (word : String) : Parse Bool := do return (← peek).lexeme.isName word

def seesIdentifier : Parse Bool := do return (← peek).lexeme.isIdentifier

def seesString : Parse Bool := do return (← peek).lexeme.isString

def seesEnd : Parse Bool := do return (← peek).lexeme = .eof

def expect (mark : String) : Parse Unit := do
  let t ← next
  unless t.lexeme.isMark mark do unexpected t

def expectKeyword (word : String) : Parse Unit := do
  let t ← next
  unless t.lexeme.isKeyword word do unexpected t

/-- Reads a punctuator if it is there. -/
def accept (mark : String) : Parse Bool := do
  if ← sees mark then skip; return true
  return false

/-- Reads a comma. A tolerant run takes a semicolon for one, and goes on without any. -/
def expectComma : Parse Unit := do
  if (← read).tolerant then
    let t ← peek
    if t.lexeme.isMark "," then skip
    else if t.lexeme.isMark ";" then
      skip
      tolerateToken t
    else tolerateAt t (.unexpectedToken t.lexeme.valueText)
  else expect ","

/-- Reads the end of a statement: a semicolon, or nothing where a line or a block ends. -/
def semicolon : Parse Unit := do
  if ← accept ";" then return
  unless (← get).newline do
    let t ← peek
    unless t.lexeme = .eof || t.lexeme.isMark "\x7d" do unexpected t
    modify fun s => { s with lastMark := s.startMark }

end Parse

/-- The state in which a parse starts, before its first token is read. -/
def ParseState.start (s : Source) : ParseState :=
  let scan := ScanState.start s
  let mark : Mark := ⟨0, scan.cursor.line, 0⟩
  { scan
    lookahead := { lexeme := .eof, start := 0, stop := 0, line := scan.cursor.line, lineStart := 0 }
    newline := false
    context := .start
    startMark := mark
    lastMark := mark
    tokens := #[]
    events := #[] }

def Parse.begin : Parse Unit := do
  skip
  markLast

end EcmaSyntax
