import EcmaSyntax.Text.Category
import EcmaSyntax.Text.Property

/-!
# Classes of code points

The lexical classes of source text: white space, line terminators, digits of the three bases, and
the two classes that identifier names are spelled with. The backslash belongs to both identifier
classes, because an escape may stand for a character of the name.

`isBlank` is a different and wider notion of white space, the one by which the layout of a text is
judged.
-/

namespace EcmaSyntax.CodePoint

/-- White space that separates tokens on a line. -/
def isWhiteSpace (c : CodePoint) : Bool :=
  c = 0x09 || c = 0x0b || c = 0x0c || c = 0x20 || c = 0xa0 || c = 0x1680 || c = 0x180e
    || (0x2000 ≤ c && c ≤ 0x200a) || c = 0x202f || c = 0x205f || c = 0x3000 || c = 0xfeff

/-- Line feed, carriage return, and the two Unicode separators. -/
def isLineTerminator (c : CodePoint) : Bool :=
  c = 0x0a || c = 0x0d || c = 0x2028 || c = 0x2029

/-- A digit `0` to `9`. -/
def isDecimalDigit (c : CodePoint) : Bool := 0x30 ≤ c && c ≤ 0x39

/-- A digit `0` to `7`. -/
def isOctalDigit (c : CodePoint) : Bool := 0x30 ≤ c && c ≤ 0x37

/-- A digit `0` or `1`. -/
def isBinaryDigit (c : CodePoint) : Bool := c = 0x30 || c = 0x31

/-- A digit `0` to `9` or a letter `a` to `f` of either case. -/
def isHexDigit (c : CodePoint) : Bool :=
  isDecimalDigit c || (0x41 ≤ c && c ≤ 0x46) || (0x61 ≤ c && c ≤ 0x66)

/-- The value of a digit in bases up to sixteen. -/
def digitValue (c : CodePoint) : Nat :=
  if c ≤ 0x39 then c - 0x30 else if c ≤ 0x46 then c - 0x37 else c - 0x57

/-- Starts of names that are no letters, or were not when the tables were drawn up. -/
def otherStarts : List CodePoint :=
  [0x1885, 0x1886, 0x2118, 0x212e, 0x309b, 0x309c, 0x08b3, 0x0af9, 0x13f8, 0x9fcd, 0xab60,
   0x10cc0, 0x108e0, 0x2b820, 0x1c80, 0x104db, 0x1e922, 0x1ee00, 0x1ee06, 0x1ee0a]

/-- Continuations of names outside the general categories. -/
def otherParts : List CodePoint :=
  [0xb7, 0x387, 0x1369, 0x136a, 0x136b, 0x136c, 0x136d, 0x136e, 0x136f, 0x1370, 0x1371, 0x19da,
   0x08e3, 0xa69e, 0x11730, 0x08d4, 0x1dfb, 0xa8c5, 0x11450, 0x1ee03, 0x1ee0b]

/-- May an identifier name start here? The backslash opens an escape. -/
def isIdentifierStart (c : CodePoint) : Bool :=
  if c < 0x80 then
    (0x61 ≤ c && c ≤ 0x7a) || (0x41 ≤ c && c ≤ 0x5a) || c = 0x24 || c = 0x5f || c = 0x5c
  else (c < 0x10000 && CodeRuns.letters.has c) || otherStarts.contains c

def isIdentifierPart (c : CodePoint) : Bool :=
  if c < 0x80 then isIdentifierStart c || isDecimalDigit c
  else isIdentifierStart c
    || (c < 0x10000 && (CodeRuns.marks.has c || CodeRuns.digits.has c || CodeRuns.connectors.has c))
    || c = 0x200c || c = 0x200d || otherParts.contains c

/-- A lone half of a surrogate pair, the very last code point of the range apart. -/
def isSurrogate (c : CodePoint) : Bool := 0xd800 ≤ c && c < 0xdfff

def isLeadSurrogate (c : CodePoint) : Bool := 0xd800 ≤ c && c ≤ 0xdbff

def isTrailSurrogate (c : CodePoint) : Bool := 0xdc00 ≤ c && c ≤ 0xdfff

/-- White space in the layout of a text: separators, and the controls that move the position. -/
def isBlank (c : CodePoint) : Bool :=
  (0x09 ≤ c && c ≤ 0x0d) || (0x1c ≤ c && c ≤ 0x20) || c = 0x85 || c = 0xa0 || c = 0x1680
    || (0x2000 ≤ c && c ≤ 0x200a) || c = 0x2028 || c = 0x2029 || c = 0x202f || c = 0x205f
    || c = 0x3000

/-- A letter or a number of any script. -/
def isAlphanumeric (c : CodePoint) : Bool := CodeRuns.alphanumeric.has c

/-- Shown as itself inside a quoted text. -/
def isPrintable (c : CodePoint) : Bool := CodeRuns.printable.has c

def isAnyDecimal (c : CodePoint) : Bool := CodeRuns.decimals.has c

end EcmaSyntax.CodePoint
