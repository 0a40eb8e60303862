import EcmaSyntax.Token.Trivia
import EcmaSyntax.Token.Punctuator
import EcmaSyntax.Token.Numeric
import EcmaSyntax.Token.Template
import EcmaSyntax.Token.Regex

/-!
# The next token

`Scan.lex` reads the token at the cursor, which must stand behind white space and comments. A slash is
always read as a punctuator: whether it starts a regular expression is for the caller to know, who
then uses `Scan.regex`. A closing brace continues a template if the innermost open brace is that of a
substitution.

At the very start of the source, a number sign and an exclamation mark hide the first line.
-/

namespace EcmaSyntax.Scan

def plainLex : Scan Token := do
  if ← atEnd then return ← token (← index) .eof
  let c ← peek 0
  if CodePoint.isIdentifierStart c then identifier
  else if c = 0x27 || c = 0x22 then stringLiteral
  else if c = 0x2e then
    if CodePoint.isDecimalDigit (← peek 1) then numericLiteral else punctuator
  else if CodePoint.isDecimalDigit c then numericLiteral
  else if c = 0x60 || (c = 0x7d && (← get).braces.head? = some .substitution) then template
  else if c = 0x23 && (← since 2021) then privateName
  else punctuator

/-- Moves over the rest of the line and reads the token after it. -/
def hashbang : Scan Token := do
  advance 2
  skipWhile fun c => !CodePoint.isLineTerminator c
  if !(← atEnd) then
    let c ← take
    endLine c
  plainLex

/-- Reads the token at the cursor, after the first line if that is hidden. -/
def lex : Scan Token := do
  if (← index) = 0 && (← looksAt "#!") && (← since 2023) then hashbang else plainLex

end EcmaSyntax.Scan
