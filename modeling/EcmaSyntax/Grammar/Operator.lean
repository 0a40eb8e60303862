import EcmaSyntax.Grammar.Primary

/-!
# Accesses, operators, arrows and assignments

Binary operators are read with a stack: an operator waits on it until one comes that does not bind
more tightly.
-/

namespace EcmaSyntax.Grammar

open Parse

/-! ### Accesses and calls -/

/-- Reads arguments in parentheses, each with `one`. -/
def argumentList (r : Recur) (one : Parse Node) : Parse (List Node) := do
  expect "("
  let args ← if ← sees ")" then pure [] else
    loop (fun (args : List Node) => do
      let e ← if ← sees "..." then spreadElement r else isolate one
      let args := args ++ [e]
      if ← sees ")" then return .done args
      expectComma
      if ← sees ")" then return .done args
      return .again args) []
  expect ")"
  return args

def arguments (r : Recur) : Parse (List Node) := argumentList r r.assignment

/-- Reads an argument that may turn out to be a parameter. -/
def asyncArgument (r : Recur) : Parse Node := do
  let e ← r.assignment
  setContext fun c => { c with coverError := none }
  return e

/-- Reads arguments that may turn out to be parameters. -/
def asyncArguments (r : Recur) : Parse (List Node) := argumentList r (asyncArgument r)

def newExpression (r : Recur) : Parse Node := do
  let start ← here
  let id ← identifierName
  require ((id.textOf "name").is "new") .unmetCondition
  if ← accept "." then
    unless (← seesName "target") && (← context).inFunction do unexpected (← peek)
    let property ← identifierName
    return ← finish start (.metaProperty id property)
  if ← seesKeyword "import" then unexpected (← peek)
  let callee ← isolate r.memberChain
  let args ← if ← sees "(" then arguments r else pure []
  notTarget
  finish start (.newExpression callee args)

/-- What was read can be assigned to, or cannot, but is no parameter. -/
def accessTarget (isTarget : Bool) : Parse Unit :=
  setContext fun c => { c with isBinding := false, isTarget }

def computedAccess (r : Recur) (start : Mark) (e : Node) (optional : Bool) : Parse Node := do
  expect "["
  let property ← isolate (expression r)
  expect "]"
  finish start (.computedMemberExpression e property optional)

def staticAccess (start : Mark) (e : Node) (optional : Bool) : Parse Node := do
  let property ← propertyName
  finish start (.staticMemberExpression e property optional)

/-- Reads an access that is skipped if there is nothing to access. -/
def optionalLink (r : Recur) (start : Mark) (allowCall : Bool) (e : Node) : Parse Node := do
  accessTarget false
  expect "?."
  if allowCall && (← sees "(") then
    let args ← arguments r
    finish start (.callExpression e args true)
  else if ← sees "[" then computedAccess r start e true
  else staticAccess start e true

/-- Reads an access or a template after an expression, if there is one. -/
def memberLink (r : Recur) (start : Mark) (allowCall : Bool) (e : Node) : Parse (Round Node Node) := do
  if ← sees "." then
    accessTarget true
    expect "."
    return .again (← staticAccess start e false)
  if (← sees "?.") && (← since 2020) then return .again (← optionalLink r start allowCall e)
  if ← sees "[" then
    accessTarget true
    return .again (← computedAccess r start e false)
  if (← peek).lexeme.isTemplateHead then
    let quasi ← templateLiteral r
    return .again (← finish start (.taggedTemplateExpression e quasi))
  return .done e

/-- Reads a call. After `async`, its arguments are parameters if an arrow follows. -/
def callLink (r : Recur) (start : Mark) (isAsync : Bool) (e : Node) : Parse Node := do
  accessTarget false
  let args ← if isAsync then asyncArguments r else arguments r
  if e.is .importCallee && args.length ≠ 1 then tolerate .importCallArity
  let call ← finish start (.callExpression e args false)
  if isAsync && (← sees "=>") then return .asyncArrowParameters (args.map Node.asPattern)
  return call

def chainHead (r : Recur) : Parse Node := do
  let isNew ← seesKeyword "new"
  inherit (if isNew then newExpression r else primary r)

def callChain (r : Recur) : Parse Node := do
  let t ← peek
  let maybeAsync ← seesName "async"
  let start := t.startMark 0
  within (fun c => { c with allowIn := true }) (fun before c => { c with allowIn := before.allowIn })
    do
      let first ← if (← seesKeyword "super") && (← context).inFunction then
          let start ← here
          skip
          let e ← finish start .superClass
          unless ← seesAny ["(", ".", "["] do unexpected (← peek)
          pure e
        else chainHead r
      loop (fun (e : Node) => do
        unless ← sees "(" do return ← memberLink r start true e
        return .again (← callLink r start (maybeAsync && t.line = (← peek).line) e)) first

/-- Reads the parent class, of which something is accessed. -/
def superAccess : Parse Node := do
  let start ← here
  expectKeyword "super"
  unless ← seesAny ["[", "."] do unexpected (← peek)
  finish start .superClass

def memberChain (r : Recur) : Parse Node := do
  require (← context).allowIn .unmetCondition
  let start := (← peek).startMark 0
  let first ← if (← seesKeyword "super") && (← context).inFunction then superAccess
    else chainHead r
  loop (memberLink r start false) first

/-! ### Unary operators -/

/-- Tolerates an operand that cannot be assigned to. -/
def checkUpdated (e : Node) (cause : Cause) : Parse Unit := do
  if (← strict) && e.isRestrictedName then tolerate cause
  unless (← context).isTarget do tolerate .invalidAssignmentTarget

def updateExpression (r : Recur) : Parse Node := do
  let first ← peek
  if ← seesAny ["++", "--"] then
    let t ← next
    let e ← inherit r.unary
    checkUpdated e .strictPrefix
    let e ← finishFrom first (.updateExpression (.ofLexeme t.lexeme) e true)
    notTarget
    return e
  let e ← inherit (callChain r)
  unless !(← get).newline && (← seesAny ["++", "--"]) do return e
  checkUpdated e .strictPostfix
  notTarget
  let t ← next
  finishFrom first (.updateExpression (.ofLexeme t.lexeme) e false)

def awaitExpression (r : Recur) : Parse Node := do
  let start ← here
  skip
  let argument ← r.unary
  finish start (.awaitExpression argument)

def deletesVariable (e : Node) : Bool :=
  (e.textOf "operator").is "delete" && (e.child? "argument").any (·.is .identifier)

def unaryExpression (r : Recur) : Parse Node := do
  if (← seesAny ["+", "-", "~", "!"]) || (← seesKeywords ["delete", "void", "typeof"]) then
    let t ← next
    let e ← inherit r.unary
    let e ← finishFrom t (.unaryExpression (.ofLexeme t.lexeme) e)
    if (← strict) && deletesVariable e then tolerate .strictDelete
    notTarget
    return e
  if (← context).allowAwait && (← seesName "await") then return ← awaitExpression r
  updateExpression r

/-! ### Binary operators -/

def exponentiation (r : Recur) : Parse Node := do
  let first ← peek
  let e ← inherit (unaryExpression r)
  requireNode e
  unless !e.is .unaryExpression && (← sees "**") do return e
  skip
  notTarget
  let right ← isolate r.exponentiation
  finishFrom first (.binaryExpression (.word "**") e right)

/-- How tightly the operators bind. -/
def precedences : List (String × Nat) :=
  [("??", 1), ("||", 2), ("&&", 3), ("|", 4), ("^", 5), ("&", 6), ("==", 7), ("!=", 7), ("===", 7),
   ("!==", 7), ("<", 8), (">", 8), ("<=", 8), (">=", 8), ("<<", 9), (">>", 9), (">>>", 9),
   ("+", 10), ("-", 10), ("*", 12), ("/", 12), ("%", 12)]

/-- How tightly a token binds its operands; zero if it is no binary operator. -/
def precedence (allowIn : Bool) : Lexeme → Nat
  | .punctuator mark => ((precedences.find? fun p => mark.is p.1).map (·.2)).getD 0
  | .keyword word => if word.is "instanceof" || (allowIn && word.is "in") then 7 else 0
  | _ => 0

def seenPrecedence : Parse Nat := do
  return precedence (← context).allowIn (← peek).lexeme

/-- An operand, and the token that it starts with. -/
structure Operand where
  node : Node
  first : Token
  deriving Inhabited

/-- An operator that waits for its right operand. -/
structure Pending where
  left : Operand
  operator : Value
  precedence : Nat
  deriving Inhabited

def Pending.complete (p : Pending) (lineStart : Nat) (right : Operand) : Parse Operand := do
  let node ← finish (p.left.first.startMark lineStart)
    (.binaryExpression p.operator p.left.node right.node)
  return ⟨node, p.left.first⟩

/-- Completes the operators that bind at least as tightly as the next one. -/
def reduceTo (prec : Nat) : List Pending → Operand → Parse (List Pending × Operand)
  | [], right => return ([], right)
  | p :: ps, right => do
    if p.precedence < prec then return (p :: ps, right)
    reduceTo prec ps (← p.complete 0 right)

def reduceAll : List Pending → Operand → Parse Node
  | [], right => return right.node
  | p :: ps, right => do reduceAll ps (← p.complete right.first.lineStart right)

def shift (r : Recur) (prec : Nat) (left : Operand) : Parse (Pending × Operand) := do
  let t ← next
  let first ← peek
  let right ← isolate (exponentiation r)
  return (⟨left, .ofLexeme t.lexeme, prec⟩, ⟨right, first⟩)

def binaryExpression (r : Recur) : Parse Node := do
  let first ← peek
  let e ← inherit (exponentiation r)
  let prec ← seenPrecedence
  if prec = 0 then return e
  notTarget
  let (p, right) ← shift r prec ⟨e, first⟩
  let (stack, right) ← loop (fun ((stack, right) : List Pending × Operand) => do
    let prec ← seenPrecedence
    if prec = 0 then return .done (stack, right)
    let (stack, left) ← reduceTo prec stack right
    let (p, right) ← shift r prec left
    return .again (p :: stack, right)) ([p], right)
  reduceAll stack right

def conditional (r : Recur) : Parse Node := do
  let first ← peek
  let test ← inherit (binaryExpression r)
  unless ← accept "?" do return test
  let consequent ← within (fun c => { c with allowIn := true })
    (fun before c => { c with allowIn := before.allowIn }) (isolate r.assignment)
  expect ":"
  let alternate ← isolate r.assignment
  let e ← finishFrom first (.conditionalExpression test consequent alternate)
  notTarget
  return e

/-! ### Arrows -/

/-- A default that is a bare `yield` is a name in parameters. -/
def asYieldName (right : Node) : Node :=
  ((right.set "type" (.kind .identifier)).set "name" (.word "yield")).erase "argument"
    |>.erase "delegate"

/-- Checks a parameter that was read as an expression. -/
def coverParameter (isAsync : Bool) (param : Value) : Parse Value := do
  let some p := param.asNode? | return param
  if p.is .assignmentPattern then
    let some right := p.child? "right" | return param
    unless right.is .yieldExpression do return param
    if right.has "argument" then unexpected (← peek)
    return p.set "right" (asYieldName right)
  if isAsync && p.is .identifier && (p.textOf "name").is "await" then unexpected (← peek)
  return param

/-- The parameters that an expression before an arrow stands for, if it can be parameters. -/
def coverFormals (e : Node) : Parse (Option Formals) := do
  let isAsync := e.is .arrowParameters && e.has "isAsync"
  unless e.is .identifier || e.is .arrowParameters do return none
  let params ← (if e.is .identifier then [Value.node e] else (e.get "params").items).mapM
    (coverParameter isAsync)
  let c ← context
  let f := params.foldl (fun f p =>
    f.push c.strict p (p.boundNames.map fun name => (Culprit.expression, name))) (Formals.start none)
  if (c.strict || !c.allowYield) && params.any (·.kind? = some .yieldExpression) then
    unexpected (← peek)
  if f.cause = some .duplicateParameter then
    fail (← errorFor (if c.strict then f.stricted else f.firstRestricted) .duplicateParameter)
  return some f

def arrowRest (r : Recur) (start : Mark) (isAsync : Bool) (f : Formals) : Parse Node := do
  expect "=>"
  let body ← if ← sees "\x7b" then
      within (fun c => { c with allowIn := true })
        (fun before c => { c with allowIn := before.allowIn }) (functionBody r)
    else isolate r.assignment
  if ← strict then
    refuseSuspect f
    tolerateStricted f
  let make :=
    if isAsync then Node.asyncArrowFunctionExpression else Node.arrowFunctionExpression
  finish start (make (.list f.params) body (!body.is .blockStatement))

/-- Reads an arrow function whose parameters have been read, as far as they are parameters. -/
def arrowFunction (r : Recur) (first : Token) (e : Node) : Parse Node := do
  notTarget
  let isAsync := e.has "isAsync"
  let some f ← coverFormals e | return e
  if (← get).newline then tolerateToken (← peek)
  setContext fun c => { c with coverError := none }
  withStrictness f <| withYield true (some isAsync) <|
    arrowRest r (first.startMark 0) isAsync f

/-! ### Assignments -/

def assignmentMarks : List String :=
  ["=", "*=", "**=", "/=", "%=", "+=", "-=", "<<=", ">>=", ">>>=", "&=", "^=", "|="]

/-- The operators that assign only if they have to. -/
def logicalAssignmentMarks : List String := ["||=", "&&=", "??="]

def seesAssignment : Parse Bool := do
  if ← seesAny assignmentMarks then return true
  return (← since 2021) && (← seesAny logicalAssignmentMarks)

def assignmentRest (r : Recur) (first : Token) (left : Node) : Parse Node := do
  unless (← context).isTarget do tolerate .invalidAssignmentTarget
  if (← strict) && left.is .identifier then
    let name := left.textOf "name"
    if Word.isRestricted name then tolerateAt first .strictAssignment
    if Word.isStrictReserved name then tolerateAt first .strictReservedWord
  let isPlain ← sees "="
  unless isPlain do notTarget
  let t ← next
  let right ← isolate r.assignment
  let left := if isPlain then left.asPattern else left
  let e ← finishFrom first (.assignmentExpression (.ofLexeme t.lexeme) left right)
  setContext fun c => { c with coverError := none }
  return e

def startsExpression : Parse Bool := do
  match (← peek).lexeme with
  | .punctuator mark =>
    return mark.isAny ["[", "(", "\x7b", "+", "-", "!", "~", "++", "--", "/", "/="]
      || ((← read).jsx && mark.is "<")
  | .keyword word =>
    return word.isAny
      ["class", "delete", "function", "let", "new", "super", "this", "typeof", "void", "yield"]
  | _ => return true

def yieldExpression (r : Recur) : Parse Node := do
  let start ← here
  expectKeyword "yield"
  if (← get).newline then return ← finish start (.yieldExpression .null false)
  let (argument, delegate) ← within (fun c => { c with allowYield := false })
    (fun before c => { c with allowYield := before.allowYield })
    do
      let delegate ← accept "*"
      let argument ← if delegate || (← startsExpression) then some <$> r.assignment else pure none
      return (argument, delegate)
  finish start (.yieldExpression argument delegate)

/-- After `async`, reads the parameter of an arrow function without parentheses, if there is one. -/
def asyncParameter (r : Recur) (first : Token) (e : Node) : Parse Node := do
  let t ← peek
  unless first.lexeme.isName "async" && first.line = t.line do return e
  unless t.lexeme.isIdentifier || t.lexeme.isKeyword "yield" do return e
  let param ← primary r
  return .asyncArrowParameters [param.asPattern]

def assignment (r : Recur) : Parse Node := do
  if !(← context).allowYield && (← seesKeyword "yield") then return ← yieldExpression r
  let first ← peek
  let e ← conditional r
  let e ← asyncParameter r first e
  if e.is .arrowParameters || (← sees "=>") then return ← arrowFunction r first e
  if ← seesAssignment then assignmentRest r first e else return e

end EcmaSyntax.Grammar
