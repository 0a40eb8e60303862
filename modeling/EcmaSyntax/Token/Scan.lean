import EcmaSyntax.Error
import EcmaSyntax.Token.Basic

/-!
# Scanning

A `Scan` reads a source from a cursor. It knows the source, the edition of the language and whether
errors are tolerated (`Setting`), and keeps the cursor, the braces that are open, whether the source
is a module, and the errors recorded so far (`ScanState`). The state is kept when a scan fails.

Loops whose rounds are scans themselves are `rounds`, bounded by the size of the source: every round
of every such loop reads at least one code point.
-/

namespace EcmaSyntax

/-- An open brace: of a block or an object, or of a substitution in a template. -/
inductive Brace where
  | block
  | substitution
  deriving DecidableEq, Repr, Inhabited

/-- What a run is given: the source, the edition of the language, and whether to go on after errors
that allow it. -/
structure Setting where
  source : Source
  edition : Nat
  tolerant : Bool
  deriving Repr, Inhabited

/-- What scanning changes. -/
structure ScanState where
  cursor : Cursor
  /-- The open braces, the innermost first. -/
  braces : List Brace
  /-- Modules have no comments that look like markup. -/
  isModule : Bool
  errors : Array SyntaxError
  deriving Repr, Inhabited

def ScanState.start (s : Source) : ScanState := ⟨.start s, [], false, #[]⟩

/-- A reader of source text. -/
abbrev Scan := ReaderT Setting (EStateM Failure ScanState)

/-- What a round of a loop comes to: another round, or a result. -/
inductive Round (σ : Type) (β : Type) where
  | again (s : σ)
  | done (b : β)

/-- Runs rounds of `body` until one is done, and at most `bound` of them. -/
def rounds {m : Type → Type} [Monad m] [MonadExceptOf Failure m] {σ β : Type}
    (body : σ → m (Round σ β)) : Nat → σ → m β
  | 0, _ => throw .exhausted
  | bound + 1, s => do
    match ← body s with
    | .again s => rounds body bound s
    | .done b => return b

namespace Scan

def cursor : Scan Cursor := do return (← get).cursor

def setCursor (c : Cursor) : Scan Unit := modify fun s => { s with cursor := c }

def index : Scan Nat := do return (← get).cursor.index

/-- Moves the cursor on its line to another offset. -/
def setIndex (i : Nat) : Scan Unit :=
  modify fun s => { s with cursor := { s.cursor with index := i } }

/-- Moves the cursor `n` code points on, on its line. -/
def advance (n : Nat) : Scan Unit := modify fun s => { s with cursor := s.cursor.advance n }

/-- The code point `k` places after the cursor. At the end of the source it is zero; further on there
is nothing to look at. -/
def peek (k : Nat) : Scan CodePoint := do
  let source := (← read).source
  let i := (← index) + k
  if source.size < i then throw (.fault .outOfRange)
  return source.char i

def take : Scan CodePoint := do
  let c ← peek 0
  advance 1
  return c

def atEnd : Scan Bool := do return (← read).source.size ≤ (← index)

/-- Does the source go on with the word `w`? -/
def looksAt (w : String) : Scan Bool := do return (← read).source.hasAt (← index) w

/-- Is the edition of the language at least `year`? -/
def since (year : Nat) : Scan Bool := do return year ≤ (← read).edition

/-- The source from an offset up to the cursor. -/
def sliceFrom (start : Nat) : Scan Text := do return (← read).source.slice start (← index)

/-- Moves the cursor on its line over the code points that pass `test`. -/
def skipWhile (test : CodePoint → Bool) : Scan Unit := do
  setIndex ((← read).source.skipWhile test (← index))

/-- Moves the cursor over the code points that pass `test`, and gives them. -/
def takeWhile (test : CodePoint → Bool) : Scan Text := do
  let start ← index
  skipWhile test
  sliceFrom start

/-- The cursor is past a line terminator, the code point `c`: a line feed after a carriage return is
read too, and a new line starts. -/
def endLine (c : CodePoint) : Scan Unit := do
  let next ← peek 0
  modify fun s => { s with cursor := s.cursor.nextLine (if c = 0x0d && next = 0x0a then 1 else 0) }

def errorHere (cause : Cause) : Scan SyntaxError := do
  let c ← cursor
  return ⟨c.index, c.line, c.column + 1, cause⟩

def refuse {α : Type} (cause : Cause) : Scan α := do throw (.refused (← errorHere cause))

/-- Records an error if errors are tolerated, and refuses the source otherwise. -/
def tolerate (cause : Cause) : Scan Unit := do
  let e ← errorHere cause
  if (← read).tolerant then modify fun s => { s with errors := s.errors.push e }
  else throw (.refused e)

/-- Fails with a fault unless a condition holds. -/
def require (condition : Bool) (f : Fault) : Scan Unit := do
  unless condition do throw (.fault f)

def openBrace (b : Brace) : Scan Unit := modify fun s => { s with braces := b :: s.braces }

/-- Closes the innermost brace, if one is open. -/
def closeBrace : Scan Unit := modify fun s => { s with braces := s.braces.drop 1 }

/-- The token from an offset up to the cursor. -/
def token (start : Nat) (lexeme : Lexeme) : Scan Token := do
  let c ← cursor
  return { lexeme, start, stop := c.index, line := c.line, lineStart := c.lineStart }

/-- Repeats `body` while it asks for another round. -/
def loop {σ β : Type} (body : σ → Scan (Round σ β)) (s : σ) : Scan β := do
  rounds body ((← read).source.size + 2) s

/-- Runs a scan and goes back to where the cursor was. Braces and recorded errors stay. -/
def lookahead {α : Type} (scan : Scan α) : Scan α := do
  let c ← cursor
  let a ← scan
  setCursor c
  return a

end Scan

end EcmaSyntax
