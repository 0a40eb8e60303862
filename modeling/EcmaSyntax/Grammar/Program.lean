import EcmaSyntax.Grammar.Statement

/-!
# Imports, exports and whole programs

`Grammar.run` ties the productions together. Its argument bounds how deep they may be nested, and the
size of the source is enough for that: no production contains itself without a token before it.
-/

namespace EcmaSyntax.Grammar

open Parse

/-! ### Imports -/

def moduleSpecifier : Parse Node := do
  let start ← here
  unless ← seesString do refuse .invalidModuleSpecifier
  let t ← next
  finish start (.literal (.ofLexeme t.lexeme) (← rawOf t))

def importSpecifier : Parse Node := do
  let start ← here
  let isPlain ← seesIdentifier
  let imported ← if isPlain then variableIdentifier none else identifierName
  let localName ← if ← seesName "as" then
      skip
      variableIdentifier none
    else
      unless isPlain do unexpected (← next)
      pure imported
  finish start (.importSpecifier localName imported)

def inBraces {α : Type} (item : Parse α) : Parse (List α) := do
  expect "\x7b"
  let items ← manyUntil (sees "\x7d") do
    let item ← item
    unless ← sees "\x7d" do expect ","
    return item
  expect "\x7d"
  return items

def namedImports : Parse (List Node) := inBraces importSpecifier

def importDefaultSpecifier : Parse Node := do
  let start ← here
  let name ← identifierName
  finish start (.importDefaultSpecifier name)

def importNamespaceSpecifier : Parse Node := do
  let start ← here
  expect "*"
  unless ← seesName "as" do refuse .missingNamespaceAlias
  skip
  let name ← identifierName
  finish start (.importNamespaceSpecifier name)

/-- Refuses the lookahead where `from` should be. -/
def refuseMissingFrom {α : Type} : Parse α := do
  let l := (← peek).lexeme
  refuse (if l.hasValue then .unexpectedToken l.valueText else .missingFromClause)

def importClause : Parse (List Node) := do
  if ← sees "\x7b" then return ← namedImports
  if ← sees "*" then return [← importNamespaceSpecifier]
  unless (← peek).lexeme.isIdentifierName && !(← seesKeyword "default") do unexpected (← next)
  let first ← importDefaultSpecifier
  unless ← accept "," do return [first]
  if ← sees "*" then return [first, ← importNamespaceSpecifier]
  if ← sees "\x7b" then return first :: (← namedImports)
  unexpected (← peek)

/-- Reads the names that an import declares and the word `from`, unless the module comes at once. -/
def importedNames : Parse (List Node) := do
  if ← seesString then return []
  let specifiers ← importClause
  unless ← seesName "from" do refuseMissingFrom
  skip
  return specifiers

/-- Reads an attribute of an import: a key and a string. -/
def importAttribute (r : Recur) : Parse Node := do
  let t ← peek
  let key ← if t.lexeme.isIdentifier then identifierName
    else if t.lexeme.isString then primary r
    else unexpected t
  expect ":"
  unless ← seesString do refuse .importAttributeValue
  let value ← primary r
  return .make "Object" [("key", key), ("value", value)]

def importAttributes (r : Recur) : Parse (List Node) := do
  expect "\x7b"
  let attributes ← loop (fun (attributes : List Node) => do
    if ← sees "\x7d" then return .done attributes
    unless attributes.isEmpty do
      expect ","
      if ← sees "\x7d" then return .done attributes
    return .again (attributes ++ [← importAttribute r])) []
  expect "\x7d"
  return attributes

def importDeclaration (r : Recur) : Parse Node := do
  if (← context).inFunction then refuse .misplacedImport
  let start ← here
  expectKeyword "import"
  let specifiers ← importedNames
  let source ← moduleSpecifier
  let hasAssertions ← seesName "assert"
  let hasAttributes := (← seesKeyword "with") || (← seesName "with")
  let attributes : Value ← if hasAssertions || hasAttributes then
      skip
      pure (.nodes (← importAttributes r))
    else pure .null
  semicolon
  finish start <|
    if hasAssertions then .importDeclaration specifiers source attributes .null
    else .importDeclaration specifiers source .null attributes

/-! ### Exports -/

def exportSpecifier : Parse Node := do
  let start ← here
  let name ← identifierName
  let exported ← if ← seesName "as" then
      skip
      identifierName
    else pure name
  finish start (.exportSpecifier name exported)

def exportDefaultSpecifier : Parse Node := do
  let start ← here
  let name ← identifierName
  finish start (.exportDefaultSpecifier name)

def exportedDefault (r : Recur) : Parse Node := do
  if ← seesKeyword "function" then functionDeclaration r true
  else if ← seesKeyword "class" then classDeclaration r true
  else if ← seesName "async" then
    if ← seesAsyncFunction then functionDeclaration r true else r.assignment
  else
    if ← seesName "from" then refuse (.unexpectedToken "from")
    let e ← if ← sees "\x7b" then objectInitializer r
      else if ← sees "[" then arrayInitializer r
      else r.assignment
    semicolon
    return e

def exportedDeclaration (r : Recur) : Parse Node := do
  if ← seesKeywords ["let", "const"] then lexicalDeclaration r
  else if ← seesKeywords ["var", "class", "function"] then r.item
  else unexpected (← peek)

/-- Reads exported names, and the module they come from if they do. -/
def exportNames (start : Mark) : Parse Node := do
  let first ← if ← seesIdentifier then some <$> exportDefaultSpecifier else pure none
  let namesFollow ← if first.isSome then accept "," else pure true
  let named ← if namesFollow then inBraces do
      let isDefault ← seesKeyword "default"
      return (← exportSpecifier, isDefault)
    else pure []
  let source ← if ← seesName "from" then
      skip
      some <$> moduleSpecifier
    else
      if named.any (·.2) then refuseMissingFrom
      pure none
  semicolon
  finish start (.exportNamedDeclaration .null (first.toList ++ named.map (·.1)) source)

def exportDeclaration (r : Recur) : Parse Node := do
  if (← context).inFunction then refuse .misplacedExport
  let start ← here
  expectKeyword "export"
  let named (declaration : Node) : Parse Node :=
    finish start (.exportNamedDeclaration declaration (.list []) .null)
  if ← seesKeyword "default" then
    skip
    let declaration ← exportedDefault r
    finish start (.exportDefaultDeclaration declaration)
  else if ← accept "*" then
    unless ← seesName "from" do refuseMissingFrom
    skip
    let source ← moduleSpecifier
    semicolon
    finish start (.exportAllDeclaration source)
  else if (← peek).lexeme.isAnyKeyword then named (← exportedDeclaration r)
  else if ← seesAsyncFunction then named (← functionDeclaration r false)
  else exportNames start

/-! ### Programs -/

def item (r : Recur) : Parse Node := do
  setContext fun c => { c with isTarget := true, isBinding := true }
  let t ← peek
  let isModule := (← context).isModule
  if t.lexeme.isKeyword "export" then
    unless isModule do tolerateAt t .misplacedExport
    exportDeclaration r
  else if t.lexeme.isKeyword "import" then
    if ← seesImportBefore "(" then expressionStatement r
    else if ← seesImportBefore "." then expressionStatement r
    else
      unless isModule do tolerateAt t .misplacedImport
      importDeclaration r
  else if t.lexeme.isKeyword "const" then lexicalDeclaration r
  else if t.lexeme.isKeyword "function" then functionDeclaration r false
  else if t.lexeme.isKeyword "class" then classDeclaration r false
  else if t.lexeme.isKeyword "let" then
    if ← seesLexicalDeclaration then lexicalDeclaration r else statement r
  else statement r

/-- All rules, nested no deeper than a bound. -/
def run : Nat → Recur
  | 0 => fun _ => throw .exhausted
  | depth + 1 => fun rule =>
    let r := run depth
    match rule with
    | .assignment => assignment r
    | .exponentiation => exponentiation r
    | .unary => unaryExpression r
    | .callChain => callChain r
    | .memberChain => memberChain r
    | .pattern kind => pattern r kind
    | .statement => statement r
    | .item => item r
    | .element => element r

/-- A bound on the nesting of a source. -/
def depthOf (s : Source) : Nat := 2 * s.size + 16

/-- Runs a production with all rules at hand. -/
def whole {α : Type} (p : Recur → Parse α) : Parse α := do
  p (run (depthOf (← read).source))

/-- Reads the statements of a program, up to the end of the source. -/
def programBody (r : Recur) : Parse (List Node) := do
  let prologue ← directives r
  let body ← manyUntil seesEnd r.item
  return prologue ++ body

def script (r : Recur) : Parse Node := do
  let start ← here
  let body ← programBody r
  finish start (.scriptProgram body)

def enterModule : Parse Unit := modify fun s => { s with scan := { s.scan with isModule := true } }

/-- Reads a module, which is strict and may await values. -/
def moduleProgram (r : Recur) : Parse Node := do
  let awaits ← since 2022
  setContext fun c =>
    { c with strict := true, isModule := true, allowAwait := c.allowAwait || awaits }
  enterModule
  let start ← here
  let body ← programBody r
  finish start (.moduleProgram body)

def program (isModule : Bool) : Parse Node := do
  begin
  whole (if isModule then moduleProgram else script)

end EcmaSyntax.Grammar
