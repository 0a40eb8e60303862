import EcmaSyntax.Token.Scan

/-!
# White space and comments

`Scan.trivia` moves the cursor over white space, line terminators and comments, and gives the
comments. Besides the two usual forms there are two that look like markup: `<!--`, outside modules,
and `-->`, only where nothing but white space and comments comes before it on its line.
-/

namespace EcmaSyntax

/-- Moves over the text of a block comment and its closing delimiter. The flag tells if there is
one. -/
def Cursor.passBlock (s : Source) (c : Cursor) : Bool × Cursor :=
  if c.index < s.size then
    if CodePoint.isLineTerminator (s.char c.index) then (c.passTerminator s).passBlock s
    else if s.char c.index = 0x2a && s.char (c.index + 1) = 0x2f then (true, c.advance 2)
    else (c.advance 1).passBlock s
  else (false, c)
termination_by s.size - c.index
decreasing_by
  · simp only [Cursor.passTerminator, Cursor.nextLine, Source.terminatorLength]
    split <;> omega
  · simp only [Cursor.advance]
    omega

namespace Scan

/-- Reads a comment that goes to the end of the line, after its delimiter of `width` code points. -/
def lineComment (width : Nat) : Scan Comment := do
  let source := (← read).source
  let c ← cursor
  let stop := source.skipWhile (fun ch => !CodePoint.isLineTerminator ch) c.index
  let last := { c with index := stop }
  setCursor (if stop < source.size then last.passTerminator source else last)
  return { block := false, textStart := c.index, textStop := stop
           span := ⟨⟨c.index - width, c.line, c.column - width⟩, last.mark⟩ }

/-- Reads a block comment, after its opening delimiter. One that is not closed is an error, after
which it may count as a comment up to the end. -/
def blockComment : Scan Comment := do
  let c ← cursor
  let (closed, last) := c.passBlock (← read).source
  setCursor last
  unless closed do tolerate .illegalToken
  return { block := true, textStart := c.index
           textStop := if closed then last.index - 2 else last.index
           span := ⟨⟨c.index - 2, c.line, c.column - 2⟩, last.mark⟩ }

/-- One round of `trivia`. The state is the comments found, the last first, and whether the cursor is
at the start of a line but for white space and comments. -/
def triviaRound : List Comment × Bool → Scan (Round (List Comment × Bool) (List Comment))
  | (found, lineStart) => do
    if ← atEnd then return .done found.reverse
    let c ← peek 0
    if CodePoint.isWhiteSpace c then
      advance 1
      return .again (found, lineStart)
    else if CodePoint.isLineTerminator c then
      advance 1
      endLine c
      return .again (found, true)
    else if ← looksAt "//" then
      advance 2
      return .again ((← lineComment 2) :: found, true)
    else if ← looksAt "/*" then
      advance 2
      return .again ((← blockComment) :: found, lineStart)
    else if lineStart && (← looksAt "-->") then
      advance 3
      return .again ((← lineComment 3) :: found, lineStart)
    else if !(← get).isModule && (← looksAt "<!--") then
      advance 4
      return .again ((← lineComment 4) :: found, lineStart)
    else return .done found.reverse

/-- Reads white space and comments up to the next token. -/
def trivia : Scan (List Comment) := do
  loop triviaRound ([], (← index) = 0)

end Scan

end EcmaSyntax
