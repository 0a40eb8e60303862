import EcmaSyntax.Text.Basic

/-!
# Reserved words

The words that the language keeps for itself, some of them only in strict code.
-/

namespace EcmaSyntax.Word

/-- Words that are keywords in all code. -/
def keywords : List String :=
  ["if", "in", "do", "var", "for", "new", "try", "let", "this", "else", "case", "void", "with",
   "enum", "while", "break", "catch", "throw", "const", "yield", "class", "super", "return",
   "typeof", "delete", "switch", "export", "import", "default", "finally", "extends", "function",
   "continue", "debugger", "instanceof"]

/-- Keywords whose misuse is reported as that of a reserved word. -/
def futureReserved : List String := ["enum", "export", "import", "super"]

def strictReserved : List String :=
  ["implements", "interface", "package", "private", "protected", "public", "static", "yield", "let"]

/-- Names that strict code may not bind or assign to. -/
def restricted : List String := ["eval", "arguments"]

def isKeyword (name : Text) : Bool := name.isAny keywords

/-- Is a name a keyword whose misuse is reported as that of a reserved word? -/
def isFutureReserved (name : Text) : Bool := name.isAny futureReserved

def isStrictReserved (name : Text) : Bool := name.isAny strictReserved

/-- Is a name `eval` or `arguments`? -/
def isRestricted (name : Text) : Bool := name.isAny restricted

end EcmaSyntax.Word
