import EcmaSyntax.Token.Lex

/-!
# Streams of tokens

Without a grammar, whether a slash divides or starts a regular expression can only be guessed from the
tokens before it. `SlashGuess` keeps what the guess needs: the keywords and punctuators read so far,
and where the last brace and the last parenthesis were opened.

A stream ends at the first error. If errors are tolerated, then what was read before it is given, and
the error is recorded.
-/

namespace EcmaSyntax

/-- The tokens read so far, as far as they help to tell what a slash means. -/
structure SlashGuess where
  /-- The texts of keywords and punctuators; none for other tokens. -/
  marks : Array (Option Text)
  /-- Where the last brace was opened; before the first token if none was. -/
  brace : Int
  /-- Where the last parenthesis was opened. -/
  paren : Int
  deriving Repr, Inhabited

namespace SlashGuess

def start : SlashGuess := ⟨#[], -1, -1⟩

def push (g : SlashGuess) (l : Lexeme) : SlashGuess :=
  let mark : Option Text := match l with
    | .punctuator t | .keyword t => some t
    | _ => none
  let place : Int := g.marks.size
  { marks := g.marks.push mark
    brace := if mark = some "\x7b" then place else g.brace
    paren := if mark = some "(" then place else g.paren }

/-- The mark at a place. Places before the first are counted from the end. -/
def mark (g : SlashGuess) (i : Int) : Except Fault (Option Text) :=
  let i := if i < 0 then i + g.marks.size else i
  if 0 ≤ i && i < g.marks.size then return g.marks.getD i.toNat none else throw .outOfRange

/-- The marks after which a function is an expression. -/
def beforeFunctionExpression : List String :=
  ["(", "\x7b", "[", "in", "typeof", "instanceof", "new", "return", "case", "delete", "throw",
   "void", "=", "+=", "-=", "*=", "**=", "/=", "%=", "<<=", ">>=", ">>>=", "&=", "|=", "^=", ",",
   "+", "-", "*", "**", "/", "%", "++", "--", "<<", ">>", ">>>", "&", "|", "^", "!", "~", "&&",
   "||", "?", ":", "===", "==", ">=", "<=", "<", ">", "!=", "!=="]

/-- Does a regular expression follow a function that stands after a mark? -/
def followsFunction (before : Option Text) (other : Bool) : Bool :=
  match before with
  | none => other
  | some t => !t.isAny beforeFunctionExpression

/-- Is the mark at a place the word `function`? -/
def isFunction (g : SlashGuess) (i : Int) : Except Fault Bool := do
  return (← g.mark i) == some (Text.ofString "function")

/-- Does a regular expression follow the brace that was just closed? -/
def afterBrace (g : SlashGuess) : Except Fault Bool := do
  if 3 ≤ g.marks.size then
    if ← g.isFunction (g.brace - 3) then return followsFunction (← g.mark (g.brace - 4)) false
  if 4 ≤ g.marks.size then
    if ← g.isFunction (g.brace - 4) then return followsFunction (← g.mark (g.brace - 5)) true
  return true

def startsRegex (g : SlashGuess) : Except Fault Bool := do
  match g.marks.back? with
  | none => return true
  | some none => return false
  | some (some t) =>
    if t.isAny ["this", "]"] then return false
    if t.is ")" then
      return ((← g.mark (g.paren - 1)).map (·.isAny ["if", "while", "for", "with"])).getD false
    if t.is "\x7d" then g.afterBrace
    else return true

end SlashGuess

/-- An entry of a stream: a comment, or a token with its place. -/
inductive StreamEntry where
  | comment (c : Comment)
  | token (t : Token) (span : Span)
  deriving Repr, Inhabited

namespace Scan

/-- Reads the token at the cursor. Where a regular expression may start, one is tried first. -/
def guessedToken (g : SlashGuess) : Scan Token := fun setting s =>
  if setting.source.char s.cursor.index ≠ 0x2f then lex setting s
  else match g.startsRegex with
    | .error f => .error (.fault f) s
    | .ok false => lex setting s
    | .ok true =>
      match regex setting s with
      | .ok t s => .ok t s
      | .error _ failed => lex setting { failed with cursor := s.cursor }

/-- Reads comments, and a token unless the source ends. -/
def streamStep (g : SlashGuess) : Scan (List StreamEntry × SlashGuess) := do
  let comments := (← trivia).map StreamEntry.comment
  if ← atEnd then return (comments, g)
  let first := (← cursor).mark
  let t ← guessedToken g
  let last := (← cursor).mark
  return (comments ++ [.token t ⟨first, last⟩], g.push t.lexeme)

end Scan

/-- The entries of a stream and the errors recorded on the way. -/
structure TokenStream where
  entries : List StreamEntry
  errors : List SyntaxError
  deriving Inhabited

namespace TokenStream

/-- Reads entries, in at most `bound` steps, after those that were found, the last first. -/
def readFrom (setting : Setting) :
    Nat → ScanState → SlashGuess → List StreamEntry → Except Failure TokenStream
  | 0, _, _, _ => throw .exhausted
  | bound + 1, s, g, found =>
    match Scan.streamStep g setting s with
    | .ok ([], _) s => return ⟨found.reverse, s.errors.toList⟩
    | .ok (more, g) s => readFrom setting bound s g (more.reverse ++ found)
    | .error (.refused e) s =>
      if setting.tolerant then return ⟨found.reverse, s.errors.toList ++ [e]⟩ else throw (.refused e)
    | .error e _ => throw e

/-- Reads the tokens and comments of a source, in the latest edition of the language. -/
def ofText (code : Text) (tolerant : Bool) : Except Failure TokenStream :=
  let source := Source.ofText code
  readFrom { source, edition := 2024, tolerant } (source.size + 2) (.start source) .start []

end TokenStream

end EcmaSyntax
