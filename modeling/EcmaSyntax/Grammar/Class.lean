import EcmaSyntax.Grammar.Function

/-!
# Classes

All code of a class is strict. A member is introduced by words that may also be its name, so that each
of them is read as a key first.
-/

namespace EcmaSyntax.Grammar

open Parse

/-- The kind of a member of a class. -/
inductive MemberKind where
  | getter
  | setter
  | method
  | constructor
  | field
  deriving DecidableEq, Repr, Inhabited

def MemberKind.word : MemberKind → String
  | .getter => "get"
  | .setter => "set"
  | .method => "method"
  | .constructor => "constructor"
  | .field => "init"

/-- What has been read of a member: the words before it, and perhaps its key. -/
structure Member where
  /-- The token that decides what the member is, and at which errors are reported. -/
  token : Token
  key : Option Node
  computed : Bool
  isStatic : Bool
  isAsync : Bool
  kind : Option MemberKind
  value : Option Node
  deriving Inhabited

/-- A member of which only the first token is known. -/
def Member.start (t : Token) : Member := ⟨t, none, false, false, false, none, none⟩

/-- Reads the key after `async`, unless that is the key itself. -/
def asyncKey (r : Recur) (m : Member) : Parse Member := do
  if !m.token.lexeme.isName "async" || (← get).newline then return m
  let t ← peek
  if t.lexeme.reads ":" || t.lexeme.reads "(" || t.lexeme.reads "*" then return m
  let key ← propertyKey r
  if t.lexeme.isName "constructor" then tolerateAt t .asyncConstructor
  return { m with isAsync := true, token := t, key }

def keyedMember (r : Recur) (m : Member) (kind : MemberKind) (value : Parse Node) :
    Parse Member := do
  let computed ← sees "["
  let key ← propertyKey r
  return { m with kind, computed, key, value := some (← value) }

/-- Reads the value of a field, if it has one. -/
def fieldValue (r : Recur) (m : Member) : Parse Member := do
  let value ← if ← accept "=" then some <$> r.assignment else pure none
  return { m with kind := some .field, value }

def memberByToken (r : Recur) (start : Mark) (m : Member) : Parse Member := do
  let keyFollows := startsKey (← peek).lexeme
  match m.token.lexeme with
  | .identifier name =>
    if name.is "get" && keyFollows then
      keyedMember r m .getter do
        setContext fun c => { c with allowYield := false }
        getter r
    else if name.is "set" && keyFollows then keyedMember r m .setter (setter r)
    else if (← read).classFields && !(← sees "(") then
      discard <| finish start (.identifier name)
      fieldValue r m
    else return m
  | .privateName _ =>
    if ← sees "(" then return { m with kind := some .method, value := some (← plainMethod r) }
    fieldValue r m
  | .punctuator mark =>
    if mark.is "*" && keyFollows then keyedMember r m .method (generatorMethod r) else return m
  | _ => return m

/-- Checks the key of a member and whether it is a constructor, of which there is only one. -/
def checkMember (m : Member) (hasConstructor : Bool) : Parse (Member × Bool) := do
  let isKey (word : String) : Bool := !m.computed && m.key.any (·.isKey word)
  if m.isStatic then
    if isKey "prototype" then refuseAt m.token .staticPrototype
    return (m, hasConstructor)
  unless isKey "constructor" do return (m, hasConstructor)
  if m.kind ≠ some .method || m.value.any (·.has "generator") then
    refuseAt m.token .specialConstructor
  if hasConstructor then refuseAt m.token .duplicateConstructor
  return ({ m with kind := some .constructor }, true)

def member (r : Recur) (start : Mark) (hasConstructor : Bool) (m : Member) :
    Parse (Node × Bool) := do
  let m ← memberByToken r start m
  let m ← if m.kind.isNone && m.key.isSome && (← sees "(") then
      let value ← if m.isAsync then asyncMethod r else plainMethod r
      pure { m with kind := some .method, value := some value }
    else pure m
  if m.kind.isNone then unexpected (← peek)
  let (m, hasConstructor) ← checkMember m hasConstructor
  let kind := m.kind.getD .field
  let make := if kind = .field then Node.fieldDefinition else Node.methodDefinition
  let node ← finish start (make m.key m.computed m.value (.word kind.word) m.isStatic)
  return (node, hasConstructor)

def classElement (r : Recur) (hasConstructor : Bool) : Parse (Node × Bool) := do
  let start ← here
  let m := Member.start (← peek)
  if ← accept "*" then return ← member r start hasConstructor m
  let computed ← sees "["
  let key ← propertyKey r
  let m := { m with computed, key := some key }
  let t ← peek
  let isStatic := (key.textOf "name").is "static"
    && (startsKey t.lexeme || t.lexeme.isMark "*" || t.lexeme.isMark "\x7b")
  unless isStatic do return ← member r start hasConstructor (← asyncKey r m)
  if t.lexeme.isMark "\x7b" && (← since 2022) then
    let body ← block r
    return (← finish start (.staticBlock body), hasConstructor)
  let m := { m with token := t, isStatic := true, computed := ← sees "[" }
  let m ← if ← accept "*" then pure m else pure { m with key := some (← propertyKey r) }
  member r start hasConstructor (← asyncKey r m)

def classBody (r : Recur) : Parse Node := do
  let start ← here
  expect "\x7b"
  let body ← loop (fun ((body, hasConstructor) : List Node × Bool) => do
    if ← sees "\x7d" then return .done body
    if ← accept ";" then return .again (body, hasConstructor)
    let (element, hasConstructor) ← classElement r hasConstructor
    return .again (body ++ [element], hasConstructor)) ([], false)
  expect "\x7d"
  finish start (.classBody body)

/-- Reads a class: its parent and its body follow the name that `name` reads. -/
def classParts (r : Recur) (name : Parse (Option Node)) : Parse (Option Node × Option Node × Node) :=
  within (fun c => { c with strict := true }) (fun before c => { c with strict := before.strict }) do
    expectKeyword "class"
    let id ← name
    let parent ← if ← seesKeyword "extends" then
        skip
        some <$> isolate r.callChain
      else pure none
    return (id, parent, ← classBody r)

def classDeclaration (r : Recur) (nameIsOptional : Bool) : Parse Node := do
  let start ← here
  let (id, parent, body) ← classParts r do
    if nameIsOptional && !(← seesIdentifier) then return none
    some <$> variableIdentifier none
  finish start (.classDeclaration id parent body)

def classExpression (r : Recur) : Parse Node := do
  let start ← here
  let (id, parent, body) ← classParts r do
    if ← seesIdentifier then some <$> variableIdentifier none else return none
  finish start (.classExpression id parent body)

end EcmaSyntax.Grammar
