import EcmaSyntax.Source
import EcmaSyntax.Pattern
import EcmaSyntax.Number.Shortest
import EcmaSyntax.Token.Word

/-!
# Tokens

A `Lexeme` is what a token says: a name, a mark, a literal with its value. A `Token` is a lexeme with
the part of the source that it covers, and the line on which it ends.
-/

namespace EcmaSyntax

/-- What a token says. -/
inductive Lexeme where
  /-- The end of the source. -/
  | eof
  | boolean (word : Text)
  | null
  | identifier (name : Text)
  | keyword (word : Text)
  /-- A private name, with its number sign. -/
  | privateName (name : Text)
  | punctuator (mark : Text)
  /-- A number; `octal` is given for the octal forms, and true for the one without a letter. -/
  | numeric (value : Numeral) (octal : Option Bool)
  /-- A big integer, with the digits it is spelled with. -/
  | bigInt (value : Nat) (digits : Text)
  /-- A string; `octal` tells, for those that have escapes at all, if one of them is octal. -/
  | string (value : Text) (octal : Option Bool)
  /-- A chunk of a template: `head` if it opens the template, `tail` if it closes it. -/
  | template (raw cooked : Text) (head tail : Bool)
  /-- A place where a template is about to start. -/
  | templateMark
  | regex (pattern flags : Text) (compiled : Option Pattern)
  | jsxIdentifier (name : Text)
  | jsxText (text : Text)
  deriving DecidableEq, Repr, Inhabited

namespace Lexeme

def kindName : Lexeme → String
  | .eof => "<end>"
  | .boolean _ => "Boolean"
  | .null => "Null"
  | .identifier _ => "Identifier"
  | .keyword _ => "Keyword"
  | .privateName _ => "PrivateIdentifier"
  | .punctuator _ => "Punctuator"
  | .numeric _ _ => "Numeric"
  | .bigInt _ _ => "BigInt"
  | .string _ _ => "String"
  | .template _ _ _ _ | .templateMark => "Template"
  | .regex _ _ _ => "RegularExpression"
  | .jsxIdentifier _ => "JSXIdentifier"
  | .jsxText _ => "JSXText"

def text? : Lexeme → Option Text
  | .boolean t | .identifier t | .keyword t | .privateName t | .punctuator t | .string t _
  | .template t _ _ _ | .jsxIdentifier t | .jsxText t => some t
  | .null => some "null"
  | .eof | .templateMark | .regex _ _ _ => some []
  | .numeric _ _ | .bigInt _ _ => none

def valueText : Lexeme → Text
  | .numeric v _ => v.text
  | .bigInt v _ => Text.ofNat v
  | l => l.text?.getD []

/-- Is the value neither an empty text nor zero? -/
def hasValue : Lexeme → Bool
  | .numeric v _ => v ≠ .whole 0
  | .bigInt v _ => v ≠ 0
  | l => l.text? ≠ some []

/-- Is the value the written word `w`, whatever the kind of the token? -/
def reads (l : Lexeme) (w : String) : Bool := l.text? == some (Text.ofString w)

/-- Is this the punctuator `w`? -/
def isMark (l : Lexeme) (w : String) : Bool :=
  match l with
  | .punctuator m => m.is w
  | _ => false

/-- Is this the keyword `w`? -/
def isKeyword (l : Lexeme) (w : String) : Bool :=
  match l with
  | .keyword k => k.is w
  | _ => false

/-- Is this the identifier `w`? -/
def isName (l : Lexeme) (w : String) : Bool :=
  match l with
  | .identifier n => n.is w
  | _ => false

def isPunctuator : Lexeme → Bool
  | .punctuator _ => true
  | _ => false

def isAnyKeyword : Lexeme → Bool
  | .keyword _ => true
  | _ => false

def isIdentifier : Lexeme → Bool
  | .identifier _ => true
  | _ => false

def isString : Lexeme → Bool
  | .string _ _ => true
  | _ => false

def isTemplate : Lexeme → Bool
  | .template _ _ _ _ | .templateMark => true
  | _ => false

def isTemplateHead : Lexeme → Bool
  | .template _ _ head _ => head
  | _ => false

/-- Is this spelled like a name: an identifier or a reserved word? -/
def isIdentifierName : Lexeme → Bool
  | .identifier _ | .keyword _ | .boolean _ | .null => true
  | _ => false

/-- Is this an octal literal, or a string with an octal escape, that strict code refuses? -/
def isOctal : Lexeme → Bool
  | .numeric _ octal | .string _ octal => octal == some true
  | _ => false

end Lexeme

/-- A lexeme with the part of the source that it covers. The line is the one it ends on. -/
structure Token where
  lexeme : Lexeme
  start : Nat
  stop : Nat
  line : Nat
  lineStart : Nat
  deriving DecidableEq, Repr, Inhabited

/-- A comment: its text lies from `textStart` to `textStop`, and its span has the delimiters too. -/
structure Comment where
  block : Bool
  textStart : Nat
  textStop : Nat
  span : Span
  deriving DecidableEq, Repr, Inhabited

end EcmaSyntax
