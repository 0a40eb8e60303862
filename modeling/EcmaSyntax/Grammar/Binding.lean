import EcmaSyntax.Grammar.Cover

/-!
# Names, keys and binding patterns

Patterns that declare variables. Each gives its node and the tokens of the names that it binds.
-/

namespace EcmaSyntax.Grammar

open Parse

/-- Reads a word as a name, reserved or not. -/
def identifierName : Parse Node := do
  let start ← here
  let t ← next
  unless t.lexeme.isIdentifierName do unexpected t
  finish start (.identifier (.ofLexeme t.lexeme))

/-- Reads the name after a point, which may be private. -/
def propertyName : Parse Node := do
  let start ← here
  let t ← next
  match t.lexeme with
  | .privateName name => finish start (.privateIdentifier name)
  | l => if l.isIdentifierName then finish start (.identifier (.ofLexeme l)) else unexpected t

/-- Is this a keyword that only strict code reserves? -/
def isReservedInStrict : Lexeme → Bool
  | .keyword word => Word.isStrictReserved word
  | _ => false

def variableIdentifier (kind : Option Declares) : Parse Node := do
  let start ← here
  let t ← next
  let c ← context
  if t.lexeme.isKeyword "yield" then
    if c.strict then tolerateAt t .strictReservedWord
    else if !c.allowYield then unexpected t
  else if !t.lexeme.isIdentifier then
    if c.strict && isReservedInStrict t.lexeme then tolerateAt t .strictReservedWord
    else if c.strict || !t.lexeme.reads "let" || kind ≠ some .hoisted then unexpected t
  else if (c.isModule || c.allowAwait) && t.lexeme.isName "await" then tolerateToken t
  finish start (.identifier (.ofLexeme t.lexeme))

def propertyKey (r : Recur) : Parse Node := do
  let start ← here
  let t ← next
  match t.lexeme with
  | .string _ _ | .numeric _ _ | .bigInt _ _ =>
    if (← strict) && t.lexeme.isOctal then tolerateAt t .strictOctal
    finish start (.literal (.ofLexeme t.lexeme) (← rawOf t))
  | .privateName name => finish start (.privateIdentifier name)
  | .identifier _ | .boolean _ | .null | .keyword _ =>
    finish start (.identifier (.ofLexeme t.lexeme))
  | .punctuator m =>
    unless m.is "[" do unexpected t
    let key ← isolate r.assignment
    expect "]"
    return key
  | _ => unexpected t

def startsKey : Lexeme → Bool
  | .identifier _ | .privateName _ | .string _ _ | .boolean _ | .null | .numeric _ _ | .bigInt _ _
  | .keyword _ => true
  | .punctuator m => m.is "["
  | _ => false

def bindingRest (r : Recur) (kind : Option Declares) : Parse (Node × List Token) := do
  let start ← here
  expect "..."
  let (argument, names) ← r.pattern kind
  return (← finish start (.restElement argument), names)

def patternWithDefault (r : Recur) (kind : Option Declares) : Parse (Node × List Token) := do
  let first ← peek
  let (pattern, names) ← r.pattern kind
  unless ← accept "=" do return (pattern, names)
  let right ← within (fun c => { c with allowYield := true })
    (fun before c => { c with allowYield := before.allowYield }) (isolate r.assignment)
  return (← finishFrom first (.assignmentPattern pattern right), names)

def arrayPattern (r : Recur) (kind : Option Declares) : Parse (Node × List Token) := do
  let start ← here
  expect "["
  let (elements, names) ← loop (fun ((elements, names) : List Value × List Token) => do
    if ← sees "]" then return .done (elements, names)
    if ← accept "," then return .again (elements ++ [.null], names)
    if ← sees "..." then
      let (element, more) ← bindingRest r kind
      return .done (elements ++ [.node element], names ++ more)
    let (element, more) ← patternWithDefault r kind
    unless ← sees "]" do expect ","
    return .again (elements ++ [.node element], names ++ more)) ([], [])
  expect "]"
  return (← finish start (.arrayPattern (.list elements)), names)

def propertyPattern (r : Recur) (kind : Option Declares) : Parse (Node × List Token) := do
  let start ← here
  let property (key value : Node) (computed shorthand : Bool) : Parse Node :=
    finish start (.property (.word "init") key computed value false shorthand)
  let t ← peek
  if t.lexeme.isIdentifier then
    let key ← variableIdentifier none
    let name ← finish start (.identifier (.ofLexeme t.lexeme))
    if ← accept "=" then
      let right ← r.assignment
      let value ← finishFrom t (.assignmentPattern name right)
      return (← property key value false true, [t])
    if !(← sees ":") then return (← property key name false true, [t])
    expect ":"
    let (value, names) ← patternWithDefault r kind
    return (← property key value false false, names)
  let computed ← sees "["
  let key ← propertyKey r
  expect ":"
  let (value, names) ← patternWithDefault r kind
  return (← property key value computed false, names)

/-- Reads the rest of the properties, which comes last. -/
def restProperty (r : Recur) : Parse (Node × List Token) := do
  let start ← here
  expect "..."
  let (argument, names) ← r.pattern none
  if ← sees "=" then refuse .defaultForRest
  unless ← sees "\x7d" do refuse .propertyAfterRest
  return (← finish start (.restElement argument), names)

def objectPattern (r : Recur) (kind : Option Declares) : Parse (Node × List Token) := do
  let start ← here
  expect "\x7b"
  let properties ← manyUntil (sees "\x7d") do
    let property ← if ← sees "..." then restProperty r else propertyPattern r kind
    unless ← sees "\x7d" do expect ","
    return property
  expect "\x7d"
  let node ← finish start (.objectPattern (properties.map (·.1)))
  return (node, (properties.map (·.2)).flatten)

def pattern (r : Recur) (kind : Option Declares) : Parse (Node × List Token) := do
  if ← sees "[" then return ← arrayPattern r kind
  if ← sees "\x7b" then return ← objectPattern r kind
  let t ← peek
  if t.lexeme.isKeyword "let" && (kind = some .constant || kind = some .scoped) then
    tolerateAt t .lexicalLet
  return (← variableIdentifier kind, [t])

/-- Reads the rest of the parameters, which comes last. -/
def restParameter (r : Recur) : Parse (Node × List Token) := do
  let start ← here
  expect "..."
  let (argument, names) ← pattern r none
  if ← sees "=" then refuse .defaultForRest
  unless ← sees ")" do refuse .restParameterNotLast
  return (← finish start (.restElement argument), names)

end EcmaSyntax.Grammar
