import EcmaSyntax.Grammar.Declaration

/-!
# Statements
-/

namespace EcmaSyntax.Grammar

open Parse

/-- Reads an empty statement. -/
def emptyStatement : Parse Node := do
  let start ← here
  expect ";"
  finish start .emptyStatement

def expressionStatement (r : Recur) : Parse Node := do
  let start ← here
  let e ← expression r
  semicolon
  finish start (.expressionStatement e)

/-- Reads the parenthesis that closes the head of a statement. A tolerant run takes any token for it;
the result tells if it was there. -/
def closeHead : Parse Bool := do
  if !(← sees ")") && (← read).tolerant then
    tolerateToken (← next)
    return false
  expect ")"
  return true

/-- An empty statement that is not written. -/
def missingStatement : Parse Node := do finish (← here) .emptyStatement

def loopBody (body : Parse Node) : Parse Node :=
  within (fun c => { c with inLoop := true }) (fun before c => { c with inLoop := before.inLoop })
    body

def branch (r : Recur) : Parse Node := do
  if (← strict) && (← seesKeyword "function") then tolerate .strictFunction
  r.statement

def ifStatement (r : Recur) : Parse Node := do
  let start ← here
  expectKeyword "if"
  expect "("
  let test ← expression r
  unless ← closeHead do
    return ← finish start (.ifStatement test (← missingStatement) .null)
  let consequent ← branch r
  let alternate ← if ← seesKeyword "else" then
      skip
      some <$> branch r
    else pure none
  finish start (.ifStatement test consequent alternate)

def doWhileStatement (r : Recur) : Parse Node := do
  let start ← here
  expectKeyword "do"
  let body ← loopBody r.statement
  expectKeyword "while"
  expect "("
  let test ← expression r
  if ← closeHead then discard <| accept ";"
  finish start (.doWhileStatement body test)

def whileStatement (r : Recur) : Parse Node := do
  let start ← here
  expectKeyword "while"
  expect "("
  let test ← expression r
  let body ← if ← closeHead then loopBody r.statement else missingStatement
  finish start (.whileStatement test body)

/-! ### Loops with a variable -/

/-- The head of a loop with a variable. -/
inductive LoopHead where
  /-- A start, with a test and a step to follow. -/
  | steps (init : Option Node)
  /-- Over the names of an object. -/
  | names (left right : Node)
  /-- Over the values of an iterable. -/
  | values (left right : Node)
  deriving Inhabited

/-- Has a declaration no initial value? -/
def isBare (declaration : Node) : Bool := (declaration.get "init").isNull

/-- Reads the object after `in`. -/
def loopNames (r : Recur) (left : Node) : Parse LoopHead := do
  skip
  return .names left (← expression r)

/-- Reads the iterable after `of`. -/
def loopValues (r : Recur) (left : Node) : Parse LoopHead := do
  skip
  return .values left (← r.assignment)

/-- Reads `p` where `in` is no operator. -/
def withoutIn {α : Type} (p : Parse α) : Parse α :=
  within (fun c => { c with allowIn := false }) (fun before c => { c with allowIn := before.allowIn })
    p

/-- Refuses a loop over names that awaits values. -/
def refuseAwait (isAwait : Bool) : Parse Unit := do
  if isAwait then refuse .awaitedForIn

def variableLoopHead (r : Recur) (isAwait : Bool) : Parse LoopHead := do
  let start ← here
  skip
  let declarations ← withoutIn (variableDeclarationList r true)
  let finished : Parse Node := finish start (.variableDeclaration declarations (.word "var"))
  match declarations with
  | [d] =>
    if ← seesKeyword "in" then
      refuseAwait isAwait
      let isPattern := (d.child? "id").any fun id => id.is .arrayPattern || id.is .objectPattern
      if d.has "init" && (isPattern || (← strict)) then tolerate (.loopInitializer "for-in")
      return ← loopNames r (← finished)
    if isBare d && (← seesName "of") then return ← loopValues r (← finished)
  | _ => pure ()
  let init ← finished
  expect ";"
  return .steps init

def lexicalLoopHead (r : Recur) (isAwait : Bool) : Parse LoopHead := do
  let start ← here
  let t ← next
  let kind : Declares := if t.lexeme.reads "const" then .constant else .scoped
  if !(← strict) && (← peek).lexeme.reads "in" then
    return ← loopNames r (← finish start (.identifier (.word kind.word)))
  let declarations ← withoutIn (bindingList r kind true)
  let finished : Parse Node := finish start (.variableDeclaration declarations (.word kind.word))
  match declarations with
  | [d] =>
    if isBare d && (← seesKeyword "in") then
      refuseAwait isAwait
      return ← loopNames r (← finished)
    if isBare d && (← seesName "of") then return ← loopValues r (← finished)
  | _ => pure ()
  semicolon
  return .steps (← finished)

def expressionLoopHead (r : Recur) (isAwait : Bool) : Parse LoopHead := do
  let first ← peek
  let init ← withoutIn (inherit r.assignment)
  let checkTarget (cause : Cause) : Parse Unit := do
    if !(← context).isTarget || init.is .assignmentExpression then tolerate cause
  if ← seesKeyword "in" then
    refuseAwait isAwait
    checkTarget .invalidForInTarget
    return ← loopNames r init.asPattern
  if ← seesName "of" then
    checkTarget .invalidForLoopTarget
    return ← loopValues r init.asPattern
  let init ← if ← sees "," then
      let rest ← manyUntil (do return !(← sees ",")) do
        skip
        isolate r.assignment
      finishFrom first (.sequenceExpression (init :: rest))
    else pure init
  expect ";"
  return .steps init

def loopHead (r : Recur) (isAwait : Bool) : Parse LoopHead := do
  if ← accept ";" then return .steps none
  if ← seesKeyword "var" then return ← variableLoopHead r isAwait
  if ← seesKeywords ["const", "let"] then return ← lexicalLoopHead r isAwait
  expressionLoopHead r isAwait

/-- Reads an expression, unless a punctuator comes at once. -/
def expressionBefore (r : Recur) (mark : String) : Parse (Option Node) := do
  if ← sees mark then return none
  some <$> expression r

def forRest (r : Recur) (start : Mark) (isAwait : Bool) (head : LoopHead) : Parse Node := do
  let body : Parse Node := do
    if ← closeHead then loopBody (isolate r.statement) else missingStatement
  match head with
  | .steps init =>
    let test ← expressionBefore r ";"
    expect ";"
    let update ← expressionBefore r ")"
    finish start (.forStatement init test update (← body))
  | .names left right => finish start (.forInStatement left right (← body))
  | .values left right =>
    let make := if isAwait then Node.forAwaitStatement else Node.forOfStatement
    finish start (make left right (← body))

def forStatement (r : Recur) : Parse Node := do
  let start ← here
  expectKeyword "for"
  let isAwait := (← since 2018) && (← context).allowAwait && (← seesName "await")
  if isAwait then skip
  expect "("
  forRest r start isAwait (← loopHead r isAwait)

/-! ### Jumps -/

/-- Reads a label, if there is one on this line. -/
def jumpLabel : Parse (Option Node) := do
  unless (← seesIdentifier) && !(← get).newline do return none
  let id ← variableIdentifier none
  let name := id.textOf "name"
  unless (← context).labels.contains name do refuse (.unknownLabel name)
  return some id

def continueStatement : Parse Node := do
  let start ← here
  expectKeyword "continue"
  let label ← jumpLabel
  semicolon
  if label.isNone && !(← context).inLoop then refuse .illegalContinue
  finish start (.continueStatement label)

def breakStatement : Parse Node := do
  let start ← here
  expectKeyword "break"
  let label ← jumpLabel
  semicolon
  let c ← context
  if label.isNone && !c.inLoop && !c.inSwitch then refuse .illegalBreak
  finish start (.breakStatement label)

def returnStatement (r : Recur) : Parse Node := do
  unless (← context).inFunction do tolerate .illegalReturn
  let start ← here
  expectKeyword "return"
  let l := (← peek).lexeme
  let ends := l.isMark ";" || l.isMark "\x7d" || (← get).newline || l = .eof
  let argument ← if !ends || l.isString || l.isTemplate then some <$> expression r else pure none
  semicolon
  finish start (.returnStatement argument)

def throwStatement (r : Recur) : Parse Node := do
  let start ← here
  expectKeyword "throw"
  if (← get).newline then refuse .newlineAfterThrow
  let argument ← expression r
  semicolon
  finish start (.throwStatement argument)

/-! ### Other statements -/

def withStatement (r : Recur) : Parse Node := do
  if ← strict then tolerate .strictWith
  let start ← here
  expectKeyword "with"
  expect "("
  let object ← expression r
  let body ← if ← closeHead then r.statement else missingStatement
  finish start (.withStatement object body)

def switchCase (r : Recur) : Parse Node := do
  let start ← here
  let test ← if ← seesKeyword "default" then
      skip
      pure none
    else
      expectKeyword "case"
      some <$> expression r
  expect ":"
  let consequent ← manyUntil
    (do return (← sees "\x7d") || (← seesKeywords ["default", "case"])) r.item
  finish start (.switchCase test consequent)

/-- Reads the clauses of a switch, of which one may be the default. -/
def switchCases (r : Recur) : Parse (List Node) := do
  expect "\x7b"
  let cases ← loop (fun ((cases, hasDefault) : List Node × Bool) => do
    if ← sees "\x7d" then return .done cases
    let clause ← switchCase r
    requireNode clause
    let isDefault := (clause.get "test").isNull
    if isDefault && hasDefault then refuse .multipleDefaults
    return .again (cases ++ [clause], hasDefault || isDefault)) ([], false)
  expect "\x7d"
  return cases

def switchStatement (r : Recur) : Parse Node := do
  let start ← here
  expectKeyword "switch"
  expect "("
  let discriminant ← expression r
  expect ")"
  let cases ← within (fun c => { c with inSwitch := true })
    (fun before c => { c with inSwitch := before.inSwitch }) (switchCases r)
  finish start (.switchStatement discriminant cases)

def labelBody (r : Recur) : Parse Node := do
  let t ← peek
  if t.lexeme.isKeyword "class" then
    tolerateToken t
    return ← classDeclaration r false
  unless t.lexeme.isKeyword "function" do return ← r.statement
  let declaration ← functionDeclaration r false
  if ← strict then tolerateAt t .strictFunction
  else if declaration.has "generator" then tolerateAt t .legacyGenerator
  return declaration

/-- Reads a statement that starts with a name, which may be its label. -/
def labelledStatement (r : Recur) : Parse Node := do
  let start ← here
  let e ← expression r
  unless e.is .identifier && (← sees ":") do
    semicolon
    return ← finish start (.expressionStatement e)
  skip
  let name := e.textOf "name"
  if (← context).labels.contains name then refuse (.redeclaration "Label" name)
  setContext fun c => { c with labels := name :: c.labels }
  let body ← labelBody r
  setContext fun c => { c with labels := c.labels.erase name }
  finish start (.labeledStatement e body)

/-- Tolerates a name that is bound twice. -/
def checkCaught : List Text → List Text → Parse Unit
  | _, [] => return
  | seen, name :: rest => do
    if seen.contains name then tolerate (.duplicateBinding name)
    checkCaught (name :: seen) rest

def catchParameter (r : Recur) : Parse (Option Node) := do
  expect "("
  if ← sees ")" then
    unless ← since 2019 do unexpected (← peek)
    expect ")"
    return none
  let (param, names) ← pattern r none
  checkCaught [] (names.map (·.lexeme.valueText))
  if (← strict) && param.isRestrictedName then tolerate .strictCatchVariable
  expect ")"
  return some param

def catchClause (r : Recur) : Parse Node := do
  let start ← here
  expectKeyword "catch"
  let param ← if ← sees "(" then catchParameter r
    else
      unless ← since 2019 do expect "("
      pure none
  let body ← block r
  finish start (.catchClause param body)

/-- Reads the last part of a try statement. -/
def finallyClause (r : Recur) : Parse Node := do
  expectKeyword "finally"
  block r

def tryStatement (r : Recur) : Parse Node := do
  let start ← here
  expectKeyword "try"
  let body ← block r
  let handler ← if ← seesKeyword "catch" then some <$> catchClause r else pure none
  let finalizer ← if ← seesKeyword "finally" then some <$> finallyClause r else pure none
  if handler.isNone && finalizer.isNone then refuse .missingHandler
  finish start (.tryStatement body handler finalizer)

def debuggerStatement : Parse Node := do
  let start ← here
  expectKeyword "debugger"
  semicolon
  finish start .debuggerStatement

def keywordStatement (r : Recur) (word : Text) : Parse Node :=
  if word.is "break" then breakStatement
  else if word.is "continue" then continueStatement
  else if word.is "debugger" then debuggerStatement
  else if word.is "do" then doWhileStatement r
  else if word.is "for" then forStatement r
  else if word.is "function" then functionDeclaration r false
  else if word.is "if" then ifStatement r
  else if word.is "return" then returnStatement r
  else if word.is "switch" then switchStatement r
  else if word.is "throw" then throwStatement r
  else if word.is "try" then tryStatement r
  else if word.is "var" then variableStatement r
  else if word.is "while" then whileStatement r
  else if word.is "with" then withStatement r
  else expressionStatement r

def statement (r : Recur) : Parse Node := do
  let t ← peek
  match t.lexeme with
  | .boolean _ | .null | .numeric _ _ | .bigInt _ _ | .string _ _ | .template _ _ _ _
  | .templateMark | .regex _ _ _ => expressionStatement r
  | .punctuator mark =>
    if mark.is "\x7b" then block r
    else if mark.is ";" then emptyStatement
    else expressionStatement r
  | .identifier name =>
    if name.is "using" && (← since 2024) then usingDeclaration r
    else if ← seesAsyncFunction then functionDeclaration r false
    else labelledStatement r
  | .keyword word => keywordStatement r word
  | _ => unexpected t

end EcmaSyntax.Grammar
