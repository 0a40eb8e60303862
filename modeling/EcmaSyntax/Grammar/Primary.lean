import EcmaSyntax.Grammar.Class
import EcmaSyntax.Grammar.Markup

/-!
# Primary expressions

Names, literals, templates, and what stands in brackets of any sort.
-/

namespace EcmaSyntax.Grammar

open Parse

def spreadElement (r : Recur) : Parse Node := do
  let start ← here
  expect "..."
  let argument ← inherit r.assignment
  finish start (.spreadElement argument)

def arrayInitializer (r : Recur) : Parse Node := do
  let start ← here
  expect "["
  let elements : List Value ← manyUntil (sees "]") do
    if ← accept "," then return .null
    if ← sees "..." then
      let element ← spreadElement r
      unless ← sees "]" do
        notTarget
        expect ","
      return element
    let element ← inherit r.assignment
    unless ← sees "]" do expect ","
    return element
  expect "]"
  finish start (.arrayExpression (.list elements))

/-! ### Objects -/

/-- What has been read of a property before its value. -/
structure PropertyHead where
  token : Token
  key : Option Node
  computed : Bool
  isAsync : Bool
  deriving Inhabited

def propertyHead (r : Recur) (start : Mark) : Parse PropertyHead := do
  let t ← peek
  if t.lexeme.isIdentifier then
    skip
    let computed ← sees "["
    let isAsync := !(← get).newline && t.lexeme.isName "async"
      && !(← seesAny [":", "(", "*", ","])
    let key ← if isAsync then propertyKey r else finish start (.identifier (.ofLexeme t.lexeme))
    return ⟨t, some key, computed, isAsync⟩
  if ← accept "*" then return ⟨t, none, false, false⟩
  let computed ← sees "["
  return ⟨t, some (← propertyKey r), computed, false⟩

/-- A property, to be finished. -/
structure PropertyParts where
  kind : String
  key : Node
  computed : Bool
  value : Node
  method : Bool
  shorthand : Bool
  /-- Does the property set the prototype? -/
  isProto : Bool
  deriving Inhabited

/-- Reads an accessor or a generator: its key, and its value. -/
def keyedProperty (r : Recur) (kind : String) (isMethod : Bool) (value : Parse Node) :
    Parse PropertyParts := do
  let computed ← sees "["
  let key ← propertyKey r
  return ⟨kind, key, computed, ← value, isMethod, false, false⟩

def propertyValue (r : Recur) (start : Mark) (hasProto : Bool) (h : PropertyHead) (key : Node) :
    Parse PropertyParts := do
  let t := h.token
  if (← sees ":") && !h.isAsync then
    let isProto := !h.computed && key.isKey "__proto__"
    if isProto && hasProto then tolerate .duplicateProto
    skip
    return ⟨"init", key, h.computed, ← inherit r.assignment, false, false, isProto⟩
  if ← sees "(" then
    let value ← if h.isAsync then asyncMethod r else plainMethod r
    return ⟨"init", key, h.computed, value, true, false, false⟩
  unless t.lexeme.isIdentifier do unexpected (← next)
  let name ← finish start (.identifier (.ofLexeme t.lexeme))
  unless ← sees "=" do return ⟨"init", key, h.computed, name, false, true, false⟩
  let equals ← next
  setContext fun c => { c with coverError := some equals }
  let right ← isolate r.assignment
  let value ← finish start (.assignmentPattern name right)
  return ⟨"init", key, h.computed, value, false, true, false⟩

/-- Reads a property. `hasProto` tells if one before it set the prototype, and so does the result. -/
def objectProperty (r : Recur) (hasProto : Bool) : Parse (Node × Bool) := do
  let start ← here
  let h ← propertyHead r start
  let keyFollows := startsKey (← peek).lexeme
  let p ←
    if h.token.lexeme.isName "get" && !h.isAsync && keyFollows then
      keyedProperty r "get" false do
        setContext fun c => { c with allowYield := false }
        getter r
    else if h.token.lexeme.isName "set" && !h.isAsync && keyFollows then
      keyedProperty r "set" false (setter r)
    else if h.token.lexeme.isMark "*" && keyFollows then
      keyedProperty r "init" true (generatorMethod r)
    else match h.key with
      | some key => propertyValue r start hasProto h key
      | none => do unexpected (← peek)
  let node ← finish start
    (.property (.word p.kind) p.key p.computed p.value p.method p.shorthand)
  return (node, hasProto || p.isProto)

def objectInitializer (r : Recur) : Parse Node := do
  let start ← here
  expect "\x7b"
  let properties ← loop (fun ((properties, hasProto) : List Node × Bool) => do
    if ← sees "\x7d" then return .done properties
    let (property, hasProto) ←
      if ← sees "..." then pure (← spreadElement r, hasProto) else objectProperty r hasProto
    unless ← sees "\x7d" do expectComma
    return .again (properties ++ [property], hasProto)) ([], false)
  expect "\x7d"
  finish start (.objectExpression properties)

/-! ### Templates -/

/-- Finishes the lookahead, a chunk of a template. -/
def templateChunk : Parse Node := do
  let start ← here
  let t ← next
  match t.lexeme with
  | .template raw cooked _ tail => finish start (.templateElement raw cooked tail)
  | _ => unexpected t

def templateHead : Parse Node := do
  require (← peek).lexeme.isTemplateHead .unmetCondition
  templateChunk

/-- If a brace was opened and not closed in a substitution, then the scan has taken the end of the
substitution for that of the brace, and reads it again. -/
def resumeTemplate : Parse Unit := do
  if (← sees "\x7d") && (← get).scan.braces.contains .substitution then
    let t ← scan do
      modify fun s => { s with braces := .substitution :: s.braces.erase .substitution }
      Scan.setIndex ((← Scan.index) - 1)
      Scan.lex
    setLookahead t

def templateElement : Parse Node := do
  unless (← peek).lexeme.isTemplate do
    resumeTemplate
    let t ← peek
    unless t.lexeme.isTemplate do unexpected t
  templateChunk

def templateLiteral (r : Recur) : Parse Node := do
  let start ← here
  let first ← templateHead
  let (quasis, expressions) ←
    loop (fun ((quasis, expressions, last) : List Node × List Node × Node) => do
      requireNode last
      if last.has "tail" then return .done (quasis, expressions)
      let e ← expression r
      let quasi ← templateElement
      return .again (quasis ++ [quasi], expressions ++ [e], quasi)) ([first], [], first)
  finish start (.templateLiteral quasis expressions)

/-! ### Parentheses -/

/-- Refuses anything but an arrow, which it leaves where it is. -/
def expectArrow : Parse Unit := do
  unless ← sees "=>" do expect "=>"

/-- Reads the closing parenthesis of a group, and makes parameters of it if an arrow follows. -/
def closeGroup (e : Node) : Parse Node := do
  expect ")"
  let e ← if ← sees "=>" then
      if e.is .identifier && (e.textOf "name").is "yield" then
        pure (Node.arrowParameters [e])
      else
        unless (← context).isBinding do unexpected (← peek)
        pure <| Node.arrowParameters <| .list <|
          if e.is .sequenceExpression then (e.get "expressions").items.map Value.asPattern
          else [(Value.node e).asPattern]
    else pure e
  setContext fun c => { c with isBinding := false }
  return e

/-- Reads the expressions after the first in parentheses. They may turn out to be parameters. -/
def groupRest (r : Recur) (first : Node) (t : Token) : Parse Node := do
  let parameters (es : List Node) : Node := .arrowParameters (es.map Node.asPattern)
  let (es, isArrow) ← loop (fun (es : List Node) => do
    unless ← accept "," do return .done (es, false)
    if ← accept ")" then return .done (es, true)
    if ← sees "..." then
      unless (← context).isBinding do unexpected (← peek)
      let (rest, _) ← restParameter r
      expect ")"
      expectArrow
      setContext fun c => { c with isBinding := false }
      return .done (es ++ [rest], true)
    return .again (es ++ [← inherit r.assignment])) [first]
  if isArrow then return parameters es
  closeGroup (← finishFrom t (.sequenceExpression es))

/-- Reads what stands in parentheses: an expression, or the parameters of an arrow function. -/
def groupExpression (r : Recur) : Parse Node := do
  expect "("
  if ← accept ")" then
    expectArrow
    return .arrowParameters (.list [])
  let t ← peek
  if ← sees "..." then
    let (rest, _) ← restParameter r
    expect ")"
    expectArrow
    return .arrowParameters [rest]
  setContext fun c => { c with isBinding := true }
  let first ← inherit r.assignment
  unless ← sees "," do return ← closeGroup first
  setContext fun c => { c with isTarget := false }
  groupRest r first t

/-! ### All primary expressions -/

/-- Is the lookahead `import`, with a punctuator after it? -/
def seesImportBefore (mark : String) : Parse Bool := do
  unless ← seesKeyword "import" do return false
  return (← peekBeyond).lexeme.isMark mark

def importCallee : Parse Node := do
  let start ← here
  expectKeyword "import"
  finish start .importCallee

def importMeta : Parse Node := do
  let start ← here
  expectKeyword "import"
  expect "."
  unless ← seesName "meta" do unexpected (← peek)
  let property ← identifierName
  finish start (.metaProperty (Node.identifier (.word "import")) property)

/-- Reads a literal: the lookahead. -/
def literal (value : Value) : Parse Node := do
  let start ← here
  notTarget
  let t ← next
  finish start (.literal value (← rawOf t))

/-- Reads a regular expression in place of the lookahead, a slash. -/
def regexLiteral : Parse Node := do
  let start ← here
  notTarget
  scan (Scan.setIndex start.index)
  let t ← nextRegex
  match t.lexeme with
  | .regex pattern flags compiled =>
    let value := (compiled.map Value.pattern).getD .null
    finish start (.regexLiteral value (← rawOf t) pattern flags)
  | _ => unexpected t

def keywordExpression (r : Recur) (word : Text) : Parse Node := do
  let start ← here
  let c ← context
  if !c.strict && c.allowYield && word.is "yield" then return ← identifierName
  if !c.strict && word.is "let" then
    skip
    return ← finish start (.identifier word)
  notTarget
  if word.is "function" then functionExpression r
  else if word.is "this" then
    skip
    finish start .thisExpression
  else if word.is "class" then classExpression r
  else if ← seesImportBefore "." then importMeta
  else if ← seesImportBefore "(" then importCallee
  else unexpected (← next)

def markExpression (r : Recur) (mark : Text) : Parse Node := do
  if mark.is "(" then
    setContext fun c => { c with isBinding := false }
    inherit (groupExpression r)
  else if mark.is "[" then inherit (arrayInitializer r)
  else if mark.is "\x7b" then inherit (objectInitializer r)
  else if mark.isAny ["/", "/="] then regexLiteral
  else unexpected (← next)

def primary (r : Recur) : Parse Node := do
  if (← read).jsx && (← sees "<") then return ← markupRoot r
  let start ← here
  let t ← peek
  match t.lexeme with
  | .identifier name =>
    let c ← context
    if (c.isModule || c.allowAwait) && name.is "await" then tolerateToken t
    if ← seesAsyncFunction then return ← functionExpression r
    skip
    finish start (.identifier name)
  | .privateName name =>
    skip
    finish start (.privateIdentifier name)
  | .numeric _ _ | .bigInt _ _ | .string _ _ =>
    if (← strict) && t.lexeme.isOctal then tolerateAt t .strictOctal
    literal (.ofLexeme t.lexeme)
  | .boolean word => literal (word.is "true")
  | .null => literal .null
  | .template _ _ _ _ | .templateMark => templateLiteral r
  | .punctuator mark => markExpression r mark
  | .keyword word => keywordExpression r word
  | _ => unexpected (← next)

end EcmaSyntax.Grammar
