import EcmaSyntax.Grammar.Cover
import EcmaSyntax.Token.Markup

/-!
# Markup

An element of markup is an expression. Its tokens are not those of the rest of the language, so that
the lookahead is dropped when an element starts (`enterMarkup`), and read anew when it ends, or where
an expression in braces starts (`leaveMarkup`).
-/

namespace EcmaSyntax.Grammar

open Parse

/-! ### Tokens -/

/-- Goes back to the start of the lookahead. -/
def enterMarkup : Parse Unit := do
  let start ← here
  scan <| Scan.setCursor
    ⟨start.index, start.line.toNat, ((start.index : Int) - start.column).toNat⟩

def leaveMarkup : Parse Unit := skip

/-- Reads a token of markup with a scan: both marks are set around it. -/
def markToken (lex : Scan Token) : Parse Token := do
  modify fun s => { s with startMark := s.scan.cursor.mark }
  let t ← scan lex
  markLast
  return t

def nextMarkup : Parse Token := do
  passTrivia
  let t ← markToken Scan.markupLex
  record t
  return t

def nextMarkupText : Parse Token := do
  let t ← markToken Scan.markupText
  unless t.lexeme = .jsxText [] do record t
  return t

def peekMarkup : Parse Token := scan <| Scan.lookahead do
  discard Scan.trivia
  Scan.markupLex

def expectMarkup (mark : String) : Parse Unit := do
  let t ← nextMarkup
  unless t.lexeme.isMark mark do unexpected t

def seesMarkup (marks : List String) : Parse Bool := do
  return marks.any (← peekMarkup).lexeme.isMark

def markupHere : Parse Mark := do
  passTrivia
  cursorMark

/-- Reads the brace that closes an expression, which is the lookahead already. -/
def reenterMarkup : Parse Unit := do
  enterMarkup
  expectMarkup "\x7d"
  unrecord

/-! ### Names and attributes -/

def markupIdentifier : Parse Node := do
  let start ← markupHere
  let t ← nextMarkup
  match t.lexeme with
  | .jsxIdentifier name => finish start (.jsxIdentifier name)
  | _ => unexpected t

def namespacedName (start : Mark) (space : Node) : Parse Node := do
  expectMarkup ":"
  let name ← markupIdentifier
  finish start (.jsxNamespacedName space name)

def elementName : Parse Node := do
  let start ← markupHere
  let name ← markupIdentifier
  if ← seesMarkup [":"] then return ← namespacedName start name
  loop (fun (name : Node) => do
    unless ← seesMarkup ["."] do return .done name
    expectMarkup "."
    let property ← markupIdentifier
    return .again (← finish start (.jsxMemberExpression name property))) name

def attributeName : Parse Node := do
  let start ← markupHere
  let name ← markupIdentifier
  if ← seesMarkup [":"] then namespacedName start name else return name

def attributeString : Parse Node := do
  let start ← markupHere
  let t ← nextMarkup
  match t.lexeme with
  | .string value _ => finish start (.literal value (← rawOf t))
  | _ => unexpected t

def attributeExpression (r : Recur) : Parse Node := do
  let start ← markupHere
  expectMarkup "\x7b"
  leaveMarkup
  if ← sees "\x7d" then tolerate .emptyAttributeExpression
  let e ← r.assignment
  reenterMarkup
  finish start (.jsxExpressionContainer e)

def attributeValue (r : Recur) : Parse Node := do
  if ← seesMarkup ["\x7b"] then return ← attributeExpression r
  if ← seesMarkup ["<"] then return ← r.element
  attributeString

def namedAttribute (r : Recur) : Parse Node := do
  let start ← markupHere
  let name ← attributeName
  let value ← if ← seesMarkup ["="] then
      expectMarkup "="
      some <$> attributeValue r
    else pure none
  finish start (.jsxAttribute name value)

def spreadAttribute (r : Recur) : Parse Node := do
  let start ← markupHere
  expectMarkup "\x7b"
  expectMarkup "..."
  leaveMarkup
  let argument ← r.assignment
  reenterMarkup
  finish start (.jsxSpreadAttribute argument)

def attributes (r : Recur) : Parse (List Node) :=
  manyUntil (seesMarkup ["/", ">"]) do
    if ← seesMarkup ["\x7b"] then spreadAttribute r else namedAttribute r

/-! ### Tags and elements -/

def openingRest (r : Recur) (start : Mark) : Parse Node := do
  let name ← elementName
  let attributes ← attributes r
  let selfClosing ← seesMarkup ["/"]
  if selfClosing then expectMarkup "/"
  expectMarkup ">"
  finish start (.jsxOpeningElement name selfClosing attributes)

def openingElement (r : Recur) : Parse Node := do
  let start ← markupHere
  expectMarkup "<"
  openingRest r start

def boundaryElement (r : Recur) : Parse Node := do
  let start ← markupHere
  expectMarkup "<"
  unless ← seesMarkup ["/"] do return ← openingRest r start
  expectMarkup "/"
  let name ← elementName
  expectMarkup ">"
  finish start (.jsxClosingElement name)

def emptyExpression : Parse Node := do
  let start ← cursorMark
  passTrivia
  markLast
  finish start .jsxEmptyExpression

def expressionContainer (r : Recur) : Parse Node := do
  let start ← markupHere
  expectMarkup "\x7b"
  let e ← if ← seesMarkup ["\x7d"] then
      let e ← emptyExpression
      expectMarkup "\x7d"
      pure e
    else
      leaveMarkup
      let e ← r.assignment
      reenterMarkup
      pure e
  finish start (.jsxExpressionContainer e)

def markupChildren (r : Recur) : Parse (List Node) :=
  loop (fun (children : List Node) => do
    if ← scan Scan.atEnd then return .done children
    let start ← cursorMark
    let t ← nextMarkupText
    let children ← if t.start < t.stop then
        let child ← finish start (.jsxText (.ofLexeme t.lexeme) (← rawOf t))
        pure (children ++ [child])
      else pure children
    unless (← scan (Scan.peek 0)) = 0x7b do return .done children
    return .again (children ++ [← expressionContainer r])) []

def qualifiedName : Value → Text
  | .object form serial span fields extra =>
    let node := Node.mk form serial span fields extra
    let part (name : String) : Text := ((find? name extra).or (find? name fields)).getD []
    match node.kind? with
    | some .jsxIdentifier => node.textOf "name"
    | some .jsxNamespacedName => part "namespace" ++ Text.ofString ":" ++ part "name"
    | some .jsxMemberExpression => part "object" ++ Text.ofString "." ++ part "property"
    | _ => []
  | _ => []
where
  /-- The name that an attribute holds, written out. -/
  find? (name : String) : List (String × Value) → Option Text
    | [] => none
    | (n, v) :: rest => if n = name then some (qualifiedName v) else find? name rest

/-- An element whose closing tag has not been read. -/
structure OpenElement where
  start : Mark
  opening : Node
  children : List Node
  closing : Option Node
  deriving Inhabited

def OpenElement.add (e : OpenElement) (children : List Node) : OpenElement :=
  { e with children := e.children ++ children }

/-- Reads the children and the closing tag of an element. The elements around the innermost open one
are kept on a stack. At the end of the source, the innermost element is given as it is. -/
def elementRest (r : Recur) (e : OpenElement) : Parse OpenElement :=
  loop (fun ((e, outer) : OpenElement × List OpenElement) => do
    if ← scan Scan.atEnd then return .done e
    let e := e.add (← markupChildren r)
    let start ← cursorMark
    let tag ← boundaryElement r
    if tag.is .jsxOpeningElement then
      if tag.has "selfClosing" then
        let child ← finish start (.jsxElement tag (.list []) .null)
        return .again (e.add [child], outer)
      return .again (⟨start, tag, [], none⟩, e :: outer)
    unless tag.is .jsxClosingElement do return .again (e, outer)
    let opened := qualifiedName (e.opening.get "name")
    unless opened = qualifiedName (tag.get "name") do tolerate (.mismatchedClosingTag opened)
    let e := { e with closing := some tag }
    match outer with
    | [] => return .done e
    | parent :: outer =>
      let child ← finish e.start (.jsxElement e.opening e.children e.closing)
      return .again (parent.add [child], outer)) (e, [])

def element (r : Recur) : Parse Node := do
  let start ← markupHere
  let opening ← openingElement r
  if opening.has "selfClosing" then
    return ← finish start (.jsxElement opening (.list []) .null)
  let e ← elementRest r ⟨start, opening, [], none⟩
  finish start (.jsxElement opening e.children e.closing)

/-- Reads an element in place of the lookahead. -/
def markupRoot (r : Recur) : Parse Node := do
  unrecord
  enterMarkup
  let e ← element r
  leaveMarkup
  return e

end EcmaSyntax.Grammar
