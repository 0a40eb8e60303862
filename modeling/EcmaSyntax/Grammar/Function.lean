import EcmaSyntax.Grammar.Binding

/-!
# Functions

Directives, parameters and bodies, and what is made of them: functions and methods. A directive in
the body may make a function strict after its name and parameters have been read; they are checked
again then.
-/

namespace EcmaSyntax.Grammar

open Parse

def expression (r : Recur) : Parse Node := do
  let t ← peek
  let first ← isolate r.assignment
  unless ← sees "," do return first
  let rest ← manyUntil (do return !(← sees ",")) do
    skip
    isolate r.assignment
  finishFrom t (.sequenceExpression (first :: rest))

def directive (r : Recur) : Parse Node := do
  let t ← peek
  let start ← here
  let e ← expression r
  let raw ← rawOf t
  let raw : Text := if e.is .literal then (raw.drop 1).dropLast else []
  semicolon
  finish start (if raw.isEmpty then .expressionStatement e else .directive e raw)

/-- Reads the directives at the start of a body. An octal escape in one of them is known to be an
error only when a later one makes the code strict. -/
def directives (r : Recur) : Parse (List Node) :=
  loop (fun ((body, octal) : List Node × Option Token) => do
    let t ← peek
    unless t.lexeme.isString do return .done body
    let statement ← directive r
    requireNode statement
    let body := body ++ [statement]
    match statement.get "directive" with
    | .text d =>
      if !d.is "use strict" then
        return .again (body, octal <|> (if t.lexeme.isOctal then some t else none))
      setContext fun c => { c with strict := true }
      if let some t := octal then tolerateAt t .strictOctal
      unless (← context).allowStrictDirective do tolerateAt t .misplacedDirective
      return .again (body, octal)
    | _ => return .done body) ([], none)

def functionBody (r : Recur) : Parse Node := do
  let start ← here
  expect "\x7b"
  let prologue ← directives r
  let body ← within
    (fun c => { c with labels := [], inLoop := false, inSwitch := false, inFunction := true })
    (fun before c =>
      { c with
        labels := before.labels
        inLoop := before.inLoop
        inSwitch := before.inSwitch
        inFunction := before.inFunction })
    do
      let body ← manyUntil (do return (← seesEnd) || (← sees "\x7d")) r.item
      expect "\x7d"
      return body
  finish start (.blockStatement (prologue ++ body))

def block (r : Recur) : Parse Node := do
  let start ← here
  expect "\x7b"
  let body ← manyUntil (sees "\x7d") r.item
  expect "\x7d"
  finish start (.blockStatement body)

def formalParameter (r : Recur) (f : Formals) : Parse Formals := do
  let (param, names) ← if ← sees "..." then restParameter r else patternWithDefault r none
  return f.push (← strict) param
    (names.map fun t => (Culprit.token t, t.lexeme.valueText))

def formalParameters (r : Recur) (name : Option (Token × Cause)) : Parse Formals := do
  expect "("
  let f := Formals.start name
  let f ← if ← sees ")" then pure f else
    loop (fun f => do
      if ← seesEnd then return .done f
      let f ← formalParameter r f
      if ← sees ")" then return .done f
      expect ","
      if ← sees ")" then return .done f
      return .again f) f
  expect ")"
  return f

/-- Reads what follows the parameters, which may only have a strictness directive if they are simple.
Whether the code is strict is afterwards as it was. -/
def withStrictness {α : Type} (f : Formals) (p : Parse α) : Parse α :=
  within (fun c => { c with allowStrictDirective := f.simple })
    (fun before c =>
      { c with strict := before.strict, allowStrictDirective := before.allowStrictDirective }) p

def methodBody (r : Recur) (f : Formals) : Parse Node := do
  notTarget
  withStrictness f do
    let body ← isolate (functionBody r)
    if ← strict then
      tolerateSuspect f
      tolerateStricted f
    return body

/-- Reads `p` where `yield` and `await` are names or not. -/
def withYield {α : Type} (allowYield : Bool) (allowAwait : Option Bool) (p : Parse α) : Parse α :=
  within (fun c => { c with allowYield, allowAwait := allowAwait.getD c.allowAwait })
    (fun before c =>
      { c with
        allowYield := before.allowYield
        allowAwait := if allowAwait.isSome then before.allowAwait else c.allowAwait }) p

/-- Reads the parameters and the body of a method, with a check of the parameters in between. -/
def method (r : Recur) (check : Formals → Parse Unit) : Parse (Formals × Node) := do
  let f ← formalParameters r none
  check f
  return (f, ← methodBody r f)

/-- A method that is no generator. -/
def plainMethodNode (f : Formals) (body : Node) : Node :=
  .functionExpression .null (.list f.params) body false

def plainMethod (r : Recur) : Parse Node := do
  let start ← here
  let (f, body) ← withYield true none (method r fun _ => return)
  finish start (plainMethodNode f body)

def asyncMethod (r : Recur) : Parse Node := do
  let start ← here
  let (f, body) ← withYield false (some true) (method r fun _ => return)
  finish start (.asyncFunctionExpression .null (.list f.params) body false)

/-- Reads a getter, which has no parameters. -/
def getter (r : Recur) : Parse Node := do
  let start ← here
  let (f, body) ← withYield true none <| method r fun f => do
    unless f.params.isEmpty do tolerate .getterArity
  finish start (plainMethodNode f body)

/-- Tolerates parameters of a setter that are not just one. -/
def checkSetter (f : Formals) : Parse Unit := do
  match f.params with
  | [.object form _ _ _ _] => if form == "RestElement" then tolerate .setterRestParameter
  | [_] => return
  | _ => tolerate .setterArity

/-- Reads a setter, which has one parameter. -/
def setter (r : Recur) : Parse Node := do
  let start ← here
  let (f, body) ← withYield true none (method r checkSetter)
  finish start (plainMethodNode f body)

def generatorMethod (r : Recur) : Parse Node := do
  let start ← here
  let (f, body) ← withYield true none <| method r fun _ =>
    setContext fun c => { c with allowYield := false }
  finish start (.functionExpression .null (.list f.params) body true)

def seesAsyncFunction : Parse Bool := do
  unless ← seesName "async" do return false
  let line := (← get).scan.cursor.line
  let t ← peekBeyond
  return t.line = line && t.lexeme.isKeyword "function"

/-- What strict code has against the name of a function. In strict code it is an error at once. -/
def nameComplaint (t : Token) : Parse (Option (Token × Cause)) := do
  let name := t.lexeme.valueText
  if ← strict then
    if Word.isRestricted name then tolerateAt t .strictFunctionName
    return none
  if Word.isRestricted name then return some (t, .strictFunctionName)
  if Word.isStrictReserved name then return some (t, .strictReservedWord)
  return none

def functionRest (r : Recur) (name : Option (Token × Cause)) : Parse (Formals × Node) := do
  let f ← formalParameters r name
  withStrictness f do
    let body ← functionBody r
    if ← strict then
      refuseSuspect f
      tolerateStricted f
    return (f, body)

/-- Reads the words that introduce a function: is it asynchronous, and is it a generator? -/
def functionIntroduction : Parse (Bool × Bool) := do
  let isAsync ← seesName "async"
  if isAsync then skip
  expectKeyword "function"
  let isGenerator ← accept "*"
  return (isAsync, isGenerator)

def functionDeclaration (r : Recur) (nameIsOptional : Bool) : Parse Node := do
  let start ← here
  let (isAsync, isGenerator) ← functionIntroduction
  let (id, complaint) ←
    if nameIsOptional && (← sees "(") then pure (none, none)
    else
      let t ← peek
      let id ← variableIdentifier none
      pure (some id, ← nameComplaint t)
  let (f, body) ← withYield (!isGenerator) (some isAsync) (functionRest r complaint)
  finish start <|
    if isAsync then .asyncFunctionDeclaration id (.list f.params) body isGenerator
    else .functionDeclaration id (.list f.params) body isGenerator

def functionExpression (r : Recur) : Parse Node := do
  let start ← here
  let (isAsync, isGenerator) ← functionIntroduction
  let (id, f, body) ← withYield (!isGenerator) (some isAsync) do
    let (id, complaint) ←
      if ← sees "(" then pure (none, none)
      else
        let t ← peek
        let id ←
          if !(← strict) && !isGenerator && t.lexeme.isKeyword "yield" then identifierName
          else variableIdentifier none
        pure (some id, ← nameComplaint t)
    let (f, body) ← functionRest r complaint
    return (id, f, body)
  finish start <|
    if isAsync then .asyncFunctionExpression id (.list f.params) body isGenerator
    else .functionExpression id (.list f.params) body isGenerator

end EcmaSyntax.Grammar
