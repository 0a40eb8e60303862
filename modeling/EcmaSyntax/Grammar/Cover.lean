import EcmaSyntax.Grammar.Rule
import EcmaSyntax.Node.Make

/-!
# Expressions that may turn out to be patterns

What stands before an arrow or an equals sign is read as an expression and only then known to be a
pattern. While such an expression is read, the context tells if it can still be one: `isBinding` for
parameters, `isTarget` for assignment. `isolate` reads an expression that is no part of a pattern,
`inherit` one that may be. An initializer that only a pattern can have is kept in `coverError` until
it is known that there is no pattern.

`Node.asPattern` turns the tree of an expression into that of a pattern. `Formals` collects the
parameters of a function and what is wrong with them.
-/

namespace EcmaSyntax

namespace Parse

/-- The context at the start of something that may be a pattern. -/
def freshCover (c : Context) : Context :=
  { c with isBinding := true, isTarget := true, coverError := none }

/-- Reads an expression that is no part of a pattern. -/
def isolate {α : Type} (p : Parse α) : Parse α :=
  within freshCover
    (fun before c =>
      { c with
        isBinding := before.isBinding
        isTarget := before.isTarget
        coverError := before.coverError })
    do
      let a ← p
      if let some t := (← context).coverError then unexpected t
      return a

/-- Reads an expression that is part of what may be a pattern. -/
def inherit {α : Type} (p : Parse α) : Parse α :=
  within freshCover
    (fun before c =>
      { c with
        isBinding := c.isBinding && before.isBinding
        isTarget := c.isTarget && before.isTarget
        coverError := before.coverError <|> c.coverError })
    p

end Parse

/-! ### Patterns -/

def Value.kind? (v : Value) : Option Kind := v.asNode?.bind Node.kind?

/-- Attributes with another kind of node. -/
def Node.retyped (k : Kind) (fields : List (String × Value)) : List (String × Value) :=
  (Node.putIn "type" (.kind k) fields).getD fields

namespace Value

mutual

/-- The pattern that an expression stands for. What cannot be a pattern stays as it is. -/
def asPattern : Value → Value
  | .object form serial span fields extra =>
    let become (k : Kind) (fields : List (String × Value)) : Value :=
      .object form serial span (Node.retyped k fields) extra
    match (Node.mk form serial span fields extra).kind? with
    | some .spreadElement => become .restElement (asPatternAt "argument" fields)
    | some .arrayExpression => become .arrayPattern (asPatternAt "elements" fields)
    | some .objectExpression => become .objectPattern (asPatternAt "properties" fields)
    | some .assignmentExpression =>
      become .assignmentPattern ((asPatternAt "left" fields).filter (·.1 ≠ "operator"))
    | _ => .object form serial span fields extra
  | v => v

def asPatterns : List Value → List Value
  | [] => []
  | v :: vs => asPattern v :: asPatterns vs

def asPropertyPattern : Value → Value
  | .object form serial span fields extra =>
    .object form serial span (asPatternAt "value" fields) extra
  | v => v

def asPropertyPatterns : List Value → List Value
  | [] => []
  | v :: vs =>
    (if v.kind? = some .spreadElement then asPattern v else asPropertyPattern v)
      :: asPropertyPatterns vs

def asPatternAt (name : String) : List (String × Value) → List (String × Value)
  | [] => []
  | (n, .list vs) :: rest =>
    (n, .list (if n ≠ name then vs
      else if n = "properties" then asPropertyPatterns vs else asPatterns vs))
      :: asPatternAt name rest
  | (n, v) :: rest => (n, if n = name then asPattern v else v) :: asPatternAt name rest

end

mutual

def boundNames : Value → List Text
  | .object form serial span fields extra =>
    let node := Node.mk form serial span fields extra
    match node.kind? with
    | some .identifier => [node.textOf "name"]
    | some .restElement => boundNamesAt "argument" fields
    | some .assignmentPattern => boundNamesAt "left" fields
    | some .arrayPattern => boundNamesAt "elements" fields
    | some .objectPattern => boundNamesAt "properties" fields
    | _ => []
  | _ => []

def boundNamesAll : List Value → List Text
  | [] => []
  | v :: vs => boundNames v ++ boundNamesAll vs

def boundNamesProperty : Value → List Text
  | .object _ _ _ fields _ => boundNamesAt "value" fields
  | _ => []

def boundNamesProperties : List Value → List Text
  | [] => []
  | v :: vs =>
    (if v.kind? = some .restElement then boundNames v else boundNamesProperty v)
      ++ boundNamesProperties vs

def boundNamesAt (name : String) : List (String × Value) → List Text
  | [] => []
  | (n, .list vs) :: rest =>
    if n ≠ name then boundNamesAt name rest
    else if n = "properties" then boundNamesProperties vs else boundNamesAll vs
  | (n, v) :: rest => if n = name then boundNames v else boundNamesAt name rest

end

end Value

namespace Node

def asPattern (n : Node) : Node := (Value.node n).asPattern.asNode?.getD n

/-- Is this a name that strict code may not bind or assign to? -/
def isRestrictedName (n : Node) : Bool := n.is .identifier && Word.isRestricted (n.textOf "name")

/-- Is this a key that reads `word`: a name or a literal? -/
def isKey (n : Node) (word : String) : Bool :=
  let reads (v : Value) : Bool := match v with
    | .text t => t.is word
    | _ => false
  (n.is .identifier && reads (n.get "name")) || (n.is .literal && reads (n.get "value"))

end Node

/-! ### Parameters -/

/-- What is wrong with a list of parameters is reported at a token, or, if the parameters were read
as an expression, behind the last token. -/
inductive Culprit where
  | token (t : Token)
  | expression
  deriving DecidableEq, Repr, Inhabited

/-- Parameters, and what is wrong with them in strict code. -/
structure Formals where
  /-- Is each parameter just a name? -/
  simple : Bool
  params : List Value
  /-- The names that are bound so far. -/
  names : List Text
  /-- What strict code does not allow, found in strict code. -/
  stricted : Option Culprit
  /-- What strict code does not allow, found in code that may still turn out to be strict. -/
  firstRestricted : Option Culprit
  cause : Option Cause
  deriving Inhabited

namespace Formals

/-- No parameters, of a function whose name may be one that strict code does not allow. -/
def start (name : Option (Token × Cause)) : Formals where
  simple := true
  params := []
  names := []
  stricted := none
  firstRestricted := name.map (.token ·.1)
  cause := name.map (·.2)

def blame (f : Formals) (who : Culprit) (cause : Cause) : Formals :=
  { f with stricted := some who, cause := some cause }

/-- Blames a culprit for something that matters only if the code is strict after all. -/
def suspect (f : Formals) (who : Culprit) (cause : Cause) : Formals :=
  { f with firstRestricted := some who, cause := some cause }

def bindName (strict : Bool) (f : Formals) (who : Culprit) (name : Text) : Formals :=
  let seen := f.names.contains name
  let f : Formals :=
    if strict then
      let f := if Word.isRestricted name then f.blame who .strictParameterName else f
      if seen then f.blame who .duplicateParameter else f
    else if f.firstRestricted.isSome then f
    else if Word.isRestricted name then f.suspect who .strictParameterName
    else if Word.isStrictReserved name then f.suspect who .strictReservedWord
    else if seen then f.blame who .duplicateParameter
    else f
  { f with names := name :: f.names }

def push (strict : Bool) (f : Formals) (param : Value) (names : List (Culprit × Text)) : Formals :=
  let f := names.foldl (fun f (who, name) => f.bindName strict who name) f
  let isName := match param with
    | .object form _ _ _ _ => form == "Identifier"
    | _ => false
  { f with simple := f.simple && isName, params := f.params ++ [param] }

end Formals

namespace Parse

def errorFor (who : Option Culprit) (cause : Cause) : Parse SyntaxError :=
  match who with
  | some (.token t) => errorAt t cause
  | _ => errorBehind cause

/-- Refuses parameters, if strict code does and they may have been read before that was known. -/
def refuseSuspect (f : Formals) : Parse Unit := do
  if f.firstRestricted.isSome then fail (← errorFor f.firstRestricted (f.cause.getD .illegalToken))

def tolerateSuspect (f : Formals) : Parse Unit := do
  if f.firstRestricted.isSome then
    forgive (← errorFor f.firstRestricted (f.cause.getD .illegalToken))

def tolerateStricted (f : Formals) : Parse Unit := do
  if f.stricted.isSome then forgive (← errorFor f.stricted (f.cause.getD .illegalToken))

end Parse

end EcmaSyntax
