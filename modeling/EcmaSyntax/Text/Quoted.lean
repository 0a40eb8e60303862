import EcmaSyntax.Text.CodePoint

/-!
# Quoted texts

Two ways to write a text between quotes. `Text.quoted` uses double quotes and ASCII only: everything
else is escaped by its UTF-16 units, so a string literal of a program that spells the same is read
back to those units. `Text.spelled` prefers single quotes and leaves alone what can be printed.
-/

namespace EcmaSyntax.Text

def units (c : CodePoint) : List Nat :=
  if c < 0x10000 then [c]
  else [0xd800 + (c - 0x10000) / 0x400, 0xdc00 + (c - 0x10000) % 0x400]

/-- A backslash, a letter, and some hexadecimal digits of a number. -/
def escape (letter : CodePoint) (width n : Nat) : Text := 0x5c :: letter :: hex width n

def quotedPoint (c : CodePoint) : Text :=
  if c = 0x22 then "\\\""
  else if c = 0x5c then "\\\\"
  else if 0x20 ≤ c && c ≤ 0x7e then [c]
  else if c = 0x0a then "\\n"
  else if c = 0x0d then "\\r"
  else if c = 0x09 then "\\t"
  else if c = 0x08 then "\\b"
  else if c = 0x0c then "\\f"
  else (units c).flatMap (escape 0x75 4)

def quoted (t : Text) : Text := 0x22 :: t.flatMap quotedPoint ++ [0x22]

/-- A code point inside the quotes `quote`, as it is if it can be printed. -/
def spelledPoint (quote c : CodePoint) : Text :=
  if c = quote || c = 0x5c then [0x5c, c]
  else if c = 0x0a then "\\n"
  else if c = 0x0d then "\\r"
  else if c = 0x09 then "\\t"
  else if CodePoint.isPrintable c then [c]
  else if c ≤ 0xff then escape 0x78 2 c
  else if c ≤ 0xffff then escape 0x75 4 c
  else escape 0x55 8 c

/-- A text between single quotes, or between double quotes if it has single ones and no double
ones. -/
def spelled (t : Text) : Text :=
  let quote : CodePoint := if t.contains 0x27 && !t.contains 0x22 then 0x22 else 0x27
  quote :: t.flatMap (spelledPoint quote) ++ [quote]

end EcmaSyntax.Text
