import EcmaSyntax.Format.Indentation

/-!
# Formatting

`Format.code` breaks the lines of a program after braces and semicolons, and indents them by the depth
of the braces around. It reads the program code point by code point and knows just enough of the
language to leave strings, templates, comments and regular expressions alone; it gives the strings and
templates that it has met, too.

Whether a slash divides or starts a regular expression is guessed from what stands before it
(`startsRegex`). All that looks back is given the text so far, the last code point first.
-/

namespace EcmaSyntax.Format

/-! ### Looking back -/

/-- Does a text end with a backslash that is not escaped itself? The text is given backwards. -/
def isEscaped (before : Text) : Bool := (before.takeWhile (· = 0x5c)).length % 2 = 1

/-- Does a text end with a word? The text is given backwards. -/
def endsWith (before : Text) (word : String) : Bool :=
  (Text.ofString word).reverse.isPrefixOf before

/-- The text before the opening parenthesis that matches `depth` closing ones, if there is one. The
text is given backwards. -/
def beforeGroup? : Nat → Text → Option Text
  | 0, before => some before
  | _ + 1, [] => none
  | depth + 1, c :: before =>
    if c = 0x29 then beforeGroup? (depth + 2) before
    else if c = 0x28 then beforeGroup? depth before
    else beforeGroup? (depth + 1) before

/-- Does a text end with a word, with no letter or digit before it? The text is given backwards. -/
def endsWithKeyword (before : Text) (word : String) : Bool :=
  endsWith before word &&
    match before.drop word.length with
    | [] => true
    | c :: _ => !CodePoint.isAlphanumeric c

/-- Does a group that is closed at the end of a text belong to a statement? The text before the
closing parenthesis is given backwards. -/
def closesHead (before : Text) : Bool :=
  match beforeGroup? 1 before with
  | none => false
  | some before =>
    ["if", "while", "for", "switch"].any
      (endsWithKeyword (before.dropWhile CodePoint.isBlank))

/-- The marks after which an expression starts. -/
def openers : Text := "=([\x7b,:?>+-*/|&!;"

/-- Does a slash after a text start a regular expression? The text is given backwards. -/
def startsRegex (before : Text) : Bool :=
  if before.isEmpty then true
  else
    match before.dropWhile CodePoint.isBlank with
    | [] => false
    | c :: rest =>
      openers.contains c
        || ["return", "return ", "throw", "throw "].any (endsWith before)
        || (c = 0x29 && closesHead rest)

/-! ### Reading -/

/-- What is being read. -/
inductive Mode where
  | plain
  /-- A string between quotes, with its text backwards. -/
  | quoted (quote : CodePoint) (text : Text)
  /-- A template, with the number of open braces and its text backwards. -/
  | template (depth : Nat) (text : Text)
  /-- A regular expression, perhaps in a class of it. -/
  | regex (inClass : Bool)
  /-- A comment, perhaps up to the end of the line only. -/
  | comment (block : Bool)
  deriving Repr, DecidableEq, Inhabited

/-- What is fixed while a program is formatted. -/
structure Setting where
  style : IndentStyle
  /-- Does the program have indented lines already? Then lines are not broken twice. -/
  tidy : Bool
  deriving Repr, DecidableEq, Inhabited

/-- A program while it is formatted. -/
structure State where
  mode : Mode
  parens : Nat
  /-- The number of open braces. -/
  level : Nat
  /-- The current line, backwards. -/
  line : Text
  /-- The lines before it, backwards. -/
  done : Text
  /-- The strings and templates, the last one first. -/
  strings : List Text
  deriving Repr, DecidableEq, Inhabited

namespace State

def start : State := ⟨.plain, 0, 0, [], [], []⟩

def put (s : State) (c : CodePoint) : State := { s with line := c :: s.line }

def flush (s : State) : State := { s with done := s.line ++ s.done, line := [] }

def newline (s : State) : State := { s with done := 0x0a :: s.done }

/-- Indents the line, which is empty. -/
def indent (s : State) (f : Setting) : State := { s with line := (f.style.indent s.level).reverse }

def breakLine (s : State) (f : Setting) : State := (s.flush.newline).indent f

end State

def Setting.detect (t : Text) : Setting where
  style := .detect t
  tidy := (t.lines.drop 1).any fun l =>
    !l.isBlank && (l.head? = some 0x20 || l.head? = some 0x09)

/-- Is the line to be broken here? A tidy program has the break already, or ends here. -/
def breaks (f : Setting) (rest : Text) : Bool :=
  !f.tidy || match rest with
    | [] => false
    | c :: _ => c ≠ 0x0a

/-- Breaks the line, or leaves that to the break that comes next. -/
def breakOnce (f : Setting) (rest : Text) (s : State) : State :=
  if breaks f rest then s.breakLine f else s.flush

/-- Reads a code point of a template. The flag tells if the next one is read, too. -/
def templateStep (before : Text) (c : CodePoint) (rest : Text) (depth : Nat) (text : Text)
    (s : State) : State × Bool :=
  if c = 0x24 && rest.head? = some 0x7b then
    ({ (s.put c).put 0x7b with mode := .template (depth + 1) (0x7b :: c :: text) }, true)
  else
    let s := s.put c
    let go (depth : Nat) : State × Bool := ({ s with mode := .template depth (c :: text) }, false)
    if c = 0x7b && 0 < depth then go (depth + 1)
    else if c = 0x7d && 0 < depth then go (depth - 1)
    else if c = 0x60 && depth = 0 && !isEscaped before then
      ({ s with mode := .plain, strings := text.reverse :: s.strings }, false)
    else go depth

def regexStep (before : Text) (c : CodePoint) (inClass : Bool) (s : State) : State :=
  let mode : Mode :=
    if isEscaped before then .regex inClass
    else if c = 0x5b then .regex true
    else if c = 0x5d then .regex false
    else if c = 0x2f && !inClass then .plain
    else .regex inClass
  { s.put c with mode }

/-- Reads a code point of a string. An empty string is not listed. -/
def quotedStep (before : Text) (c quote : CodePoint) (text : Text) (s : State) : State :=
  let s := s.put c
  if c = quote && !isEscaped before then
    { s with mode := .plain, strings := if text.isEmpty then s.strings else text.reverse :: s.strings }
  else { s with mode := .quoted quote (c :: text) }

/-- Reads a code point of a comment. The flag tells if the next one is read, too. -/
def commentStep (f : Setting) (c : CodePoint) (rest : Text) (block : Bool) (s : State) :
    State × Bool :=
  if block then
    if c = 0x2a && rest.head? = some 0x2f then
      ({ (s.put c).put 0x2f with mode := .plain }, true)
    else (s.put c, false)
  else if c = 0x0a then ({ ((s.put c).flush).indent f with mode := .plain }, false)
  else (s.put c, false)

/-- The comment that starts at the front of a text: does it go on up to its own delimiter, or to the
end of the line? -/
def comment? : Text → Option Bool
  | 0x2f :: 0x2a :: _ => some true
  | 0x2f :: 0x2f :: _ => some false
  | _ => none

/-- The marks that stay on the line of a closing brace. -/
def followers : Text := ";\x7d),\n"

/-- Closes a brace. The line before it ends, unless it is blank, and so does the line of the brace,
unless what follows belongs to it. -/
def closeBrace (f : Setting) (rest : Text) (s : State) : State :=
  let s := if s.line.isBlank then s else s.flush.newline
  let s := (({ s with level := s.level - 1 }).indent f).put 0x7d
  match rest with
  | [] => s
  | c :: _ => if followers.contains c then s else s.breakLine f

/-- Adds a code point that is not special. Blanks at the start of a line are left out. -/
def plainPut (f : Setting) (c : CodePoint) (s : State) : State :=
  if !s.line.isEmpty then s.put c
  else if c = 0x20 || c = 0x09 then s
  else (s.indent f).put c

/-- Reads a code point that is outside of all literals and comments and starts none. -/
def markStep (f : Setting) (c : CodePoint) (rest : Text) (s : State) : State :=
  if c = 0x7b then
    let s := s.put c
    breakOnce f rest { s with level := s.level + 1 }
  else if c = 0x7d then closeBrace f rest s
  else if c = 0x3b then
    let s := s.put c
    if s.parens = 0 then breakOnce f rest s else s
  else if c = 0x0a then
    (if s.line.isBlank then { s with line := [] } else s.flush).newline
  else plainPut f c s

def countParens (c : CodePoint) (s : State) : State :=
  if c = 0x28 then { s with parens := s.parens + 1 }
  else if c = 0x29 then { s with parens := s.parens - 1 }
  else s

/-- Reads a code point outside of all literals and comments. The flag tells if the next one is read,
too. -/
def plainStep (f : Setting) (before : Text) (c : CodePoint) (rest : Text) (s : State) :
    State × Bool :=
  match comment? (c :: rest) with
  | some block =>
    ({ (s.put c).put (if block then 0x2a else 0x2f) with mode := .comment block }, true)
  | none =>
    if c = 0x60 then ({ s.put c with mode := .template 0 [] }, false)
    else if c = 0x2f && startsRegex before then ({ s.put c with mode := .regex false }, false)
    else if c = 0x27 || c = 0x22 then ({ s.put c with mode := .quoted c [] }, false)
    else (markStep f c rest (countParens c s), false)

/-- Reads a code point. The flag tells if the next one is read, too. -/
def step (f : Setting) (before : Text) (c : CodePoint) (rest : Text) (s : State) : State × Bool :=
  match s.mode with
  | .template depth text => templateStep before c rest depth text s
  | .regex inClass => (regexStep before c inClass s, false)
  | .quoted quote text => (quotedStep before c quote text s, false)
  | .comment block => commentStep f c rest block s
  | .plain => plainStep f before c rest s

/-- Reads a text after another one, which is given backwards; `skip` if its first code point was read
already. -/
def read (f : Setting) : Bool → Text → Text → State → State
  | _, _, [], s => s
  | true, before, c :: rest, s => read f false (c :: before) rest s
  | false, before, c :: rest, s =>
    let (s, skip) := step f before c rest s
    read f skip (c :: before) rest s

/-- Formats a program: its strings and templates, and its text. -/
def code (t : Text) : List Text × Text :=
  let s := read (.detect t) false [] t .start
  let s := if s.line.isBlank then s else s.flush
  (s.strings.reverse, s.done.reverse)

end EcmaSyntax.Format
