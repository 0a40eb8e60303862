import EcmaSyntax.Grammar.Operator

/-!
# Declarations of variables
-/

namespace EcmaSyntax.Grammar

open Parse

def commaSeparated {α : Type} (item : Parse α) : Parse (List α) := do
  let first ← item
  let rest ← manyUntil (do return !(← sees ",")) do
    skip
    item
  return first :: rest

/-- Tolerates a name that strict code may not declare. -/
def checkDeclared (id : Node) : Parse Unit := do
  if (← strict) && id.isRestrictedName then tolerate .strictVariableName

/-- Reads a variable of a block, or a constant, and its initial value. Only the head of a loop may
leave out the value of a constant or of a pattern. -/
def lexicalBinding (r : Recur) (kind : Declares) (inFor : Bool) : Parse Node := do
  let start ← here
  let (id, _) ← pattern r (some kind)
  checkDeclared id
  let init ←
    if kind = .constant then
      if (← seesKeyword "in") || (← seesName "of") then pure none
      else
        unless ← accept "=" do refuse (.missingInitializer "const")
        some <$> isolate r.assignment
    else if (!inFor && !id.is .identifier) || (← sees "=") then
      expect "="
      some <$> isolate r.assignment
    else pure none
  finish start (.variableDeclarator id init)

def bindingList (r : Recur) (kind : Declares) (inFor : Bool) : Parse (List Node) :=
  commaSeparated (lexicalBinding r kind inFor)

/-- Is the lookahead, the word `let`, the start of a declaration? -/
def seesLexicalDeclaration : Parse Bool := do
  let l := (← peekBeyond).lexeme
  return l.isIdentifier || l.isMark "[" || l.isMark "\x7b" || l.isKeyword "let" || l.isKeyword "yield"

def lexicalDeclaration (r : Recur) : Parse Node := do
  let start ← here
  let t ← next
  require (t.lexeme.reads "let" || t.lexeme.reads "const") .unmetCondition
  let kind : Declares := if t.lexeme.reads "let" then .scoped else .constant
  let declarations ← bindingList r kind false
  semicolon
  finish start (.variableDeclaration declarations (.word kind.word))

def variableDeclaration (r : Recur) (inFor : Bool) : Parse Node := do
  let start ← here
  let (id, _) ← pattern r (some .hoisted)
  checkDeclared id
  let init ← if ← accept "=" then some <$> isolate r.assignment
    else
      if !id.is .identifier && !inFor then expect "="
      pure none
  finish start (.variableDeclarator id init)

def variableDeclarationList (r : Recur) (inFor : Bool) : Parse (List Node) :=
  commaSeparated (variableDeclaration r inFor)

def variableStatement (r : Recur) : Parse Node := do
  let start ← here
  expectKeyword "var"
  let declarations ← variableDeclarationList r false
  semicolon
  finish start (.variableDeclaration declarations (.word "var"))

def usingDeclaration (r : Recur) : Parse Node := do
  let start ← here
  let t ← next
  unless t.lexeme.isName "using" do unexpected t
  let declarations ← bindingList r .resource false
  semicolon
  finish start (.variableDeclaration declarations (.word "using"))

end EcmaSyntax.Grammar
