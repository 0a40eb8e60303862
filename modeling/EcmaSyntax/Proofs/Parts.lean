import EcmaSyntax.Node.Make
import EcmaSyntax.Proofs.Attribute
import EcmaSyntax.Proofs.Places

/-!
# What nodes are made of

`Composed n parts` says that a node is new, of a form of its own, no literal, and has no values but those
in `parts` and its kind; its place is not among its attributes. It holds of every node that the grammar
makes, literals apart; so what is true of the parts is known of the node without a look at its form.
`Made` says also that the node is not made for an element of markup.
-/

namespace EcmaSyntax

variable {k : Kind} {form : String} {fields : List (String × Value)}

/-- Only comments are named like comments. -/
theorem Kind.not_isAny_name (hline : k ≠ .lineComment) (hblock : k ≠ .blockComment) :
    Text.isAny k.name ["LineComment", "BlockComment"] = false := by
  have hname : k.name ≠ "LineComment" ∧ k.name ≠ "BlockComment" := by
    cases k with
    | lineComment => exact absurd rfl hline
    | blockComment => exact absurd rfl hblock
    | _ => decide
  rw [Bool.eq_false_iff]
  simpa [Text.isAny, Text.ofString_is] using hname

/-- Is this a form for nodes, with a kind that is not that of literals or comments, and with names for
attributes? -/
def isSignature (form : String) (k : Kind) (names : List String) : Bool :=
  form ≠ "" && k ≠ .literal && k ≠ .lineComment && k ≠ .blockComment && names.all (!isPlace ·)

theorem isSignature_iff : isSignature form k names ↔ form ≠ "" ∧ k ≠ .literal ∧ (k ≠ .lineComment ∧ k ≠ .blockComment)
      ∧ names.all (!isPlace ·) := by
  simp [isSignature, and_assoc]

/-- A new node that is no literal, the kinds that it may have, and all its values but its kind. -/
class Composed (n : Node) (ks : outParam (List Kind)) (parts : outParam (List Value)) : Prop where
  out : ∃ form k fields, k ∈ ks ∧ isSignature form k (fields.map Prod.fst) ∧ n = .ofKind form k fields
    ∧ ∀ f ∈ fields, f.2 ∈ parts

theorem Composed.ofKind (h : isSignature form k (fields.map Prod.fst) = true) :
    Composed (.ofKind form k fields) [k] (fields.map Prod.snd) :=
  ⟨form, k, fields, List.mem_singleton_self k, h, rfl, fun _ hf => List.mem_map_of_mem hf⟩

/-- Is this the kind of an element of markup, or of the tag that opens one? -/
def Kind.isElemental (k : Kind) : Bool := k = .jsxElement || k = .jsxOpeningElement

/-- Is this an element of markup, or the tag that opens one? -/
def Node.isElemental (n : Node) : Bool := n.kind?.any Kind.isElemental

/-- A new node that is neither a literal nor made for an element, with its kinds and its values. -/
class Made (n : Node) (ks : outParam (List Kind)) (parts : outParam (List Value)) : Prop
    extends Composed n ks parts where
  common : n.isElemental = false

theorem Node.isElemental_ofKind : (Node.ofKind form k fields).isElemental = k.isElemental := by
  simp [Node.isElemental, Node.kind?, Node.get, Node.ofKind, Node.make]

theorem Made.ofKind (h : (isSignature form k (fields.map Prod.fst) && !k.isElemental) = true) :
    Made (.ofKind form k fields) [k] (fields.map Prod.snd) := by
  rw [Bool.and_eq_true, Bool.not_eq_true'] at h
  exact { Composed.ofKind h.1 with common := Node.isElemental_ofKind.trans h.2 }

namespace Node

variable {a b c d e f : Value}

instance : Made (arrayExpression a) [.arrayExpression] [a] := .ofKind rfl
instance : Made (arrayPattern a) [.arrayPattern] [a] := .ofKind rfl
instance : Made (arrowFunctionExpression a b c) [.arrowFunctionExpression] [.bool false, .bool false, a, b, c] :=
  .ofKind rfl
instance : Made (asyncArrowFunctionExpression a b c) [.arrowFunctionExpression] [.bool false, .bool true, a, b, c] :=
  .ofKind rfl
instance : Made (assignmentExpression a b c) [.assignmentExpression] [a, b, c] := .ofKind rfl
instance : Made (assignmentPattern a b) [.assignmentPattern] [a, b] := .ofKind rfl
instance : Made (asyncFunctionDeclaration a b c d) [.functionDeclaration] [d, .bool false, .bool true, a, b, c] :=
  .ofKind rfl
instance : Made (asyncFunctionExpression a b c d) [.functionExpression] [d, .bool false, .bool true, a, b, c] :=
  .ofKind rfl
instance : Made (functionDeclaration a b c d) [.functionDeclaration] [.bool false, .bool false, a, b, c, d] :=
  .ofKind rfl
instance : Made (functionExpression a b c d) [.functionExpression] [.bool false, .bool false, a, b, c, d] :=
  .ofKind rfl
instance : Made (awaitExpression a) [.awaitExpression] [a] := .ofKind rfl
instance : Made (blockStatement a) [.blockStatement] [a] := .ofKind rfl
instance : Made (breakStatement a) [.breakStatement] [a] := .ofKind rfl
instance : Made (callExpression a b c) [.callExpression] [a, b, c] := .ofKind rfl
instance : Made (catchClause a b) [.catchClause] [a, b] := .ofKind rfl
instance : Made (classBody a) [.classBody] [a] := .ofKind rfl
instance : Made (classDeclaration a b c) [.classDeclaration] [a, b, c] := .ofKind rfl
instance : Made (classExpression a b c) [.classExpression] [a, b, c] := .ofKind rfl
instance : Made (computedMemberExpression a b c) [.memberExpression] [.bool true, a, b, c] := .ofKind rfl
instance : Made (staticMemberExpression a b c) [.memberExpression] [.bool false, a, b, c] := .ofKind rfl
instance : Made (conditionalExpression a b c) [.conditionalExpression] [a, b, c] := .ofKind rfl
instance : Made (continueStatement a) [.continueStatement] [a] := .ofKind rfl
instance : Made debuggerStatement [.debuggerStatement] [] := .ofKind rfl
instance : Made (directive a b) [.expressionStatement] [a, b] := .ofKind rfl
instance : Made (doWhileStatement a b) [.doWhileStatement] [a, b] := .ofKind rfl
instance : Made emptyStatement [.emptyStatement] [] := .ofKind rfl
instance : Made (exportAllDeclaration a) [.exportAllDeclaration] [a] := .ofKind rfl
instance : Made (exportDefaultDeclaration a) [.exportDefaultDeclaration] [a] := .ofKind rfl
instance : Made (exportNamedDeclaration a b c) [.exportNamedDeclaration] [a, b, c] := .ofKind rfl
instance : Made (exportSpecifier a b) [.exportSpecifier] [b, a] := .ofKind rfl
instance : Made (exportDefaultSpecifier a) [.exportDefaultSpecifier] [a] := .ofKind rfl
instance : Made (expressionStatement a) [.expressionStatement] [a] := .ofKind rfl
instance : Made (forInStatement a b c) [.forInStatement] [.bool false, a, b, c] := .ofKind rfl
instance : Made (forOfStatement a b c) [.forOfStatement] [a, b, c] := .ofKind rfl
instance : Made (forAwaitStatement a b c) [.forAwaitStatement] [a, b, c] := .ofKind rfl
instance : Made (forStatement a b c d) [.forStatement] [a, b, c, d] := .ofKind rfl
instance : Made (identifier a) [.identifier] [a] := .ofKind rfl
instance : Made (privateIdentifier a) [.privateIdentifier] [a] := .ofKind rfl
instance : Made (staticBlock a) [.staticBlock] [a] := .ofKind rfl
instance : Made (ifStatement a b c) [.ifStatement] [a, b, c] := .ofKind rfl
instance : Made importCallee [.importCallee] [] := .ofKind rfl
instance : Made (importDefaultSpecifier a) [.importDefaultSpecifier] [a] := .ofKind rfl
instance : Made (importNamespaceSpecifier a) [.importNamespaceSpecifier] [a] := .ofKind rfl
instance : Made (importSpecifier a b) [.importSpecifier] [a, b] := .ofKind rfl
instance : Made (labeledStatement a b) [.labeledStatement] [a, b] := .ofKind rfl
instance : Made (metaProperty a b) [.metaProperty] [a, b] := .ofKind rfl
instance : Made (methodDefinition a b c d e) [.methodDefinition] [a, b, c, d, e] := .ofKind rfl
instance : Made (fieldDefinition a b c d e) [.fieldDefinition] [a, b, c, d, e] := .ofKind rfl
instance : Made (moduleProgram a) [.program] [.word "module", a] := .ofKind rfl
instance : Made (scriptProgram a) [.program] [.word "script", a] := .ofKind rfl
instance : Made (newExpression a b) [.newExpression] [a, b] := .ofKind rfl
instance : Made (objectExpression a) [.objectExpression] [a] := .ofKind rfl
instance : Made (objectPattern a) [.objectPattern] [a] := .ofKind rfl
instance : Made (property a b c d e f) [.property] [b, c, d, a, e, f] := .ofKind rfl
instance : Made (restElement a) [.restElement] [a] := .ofKind rfl
instance : Made (returnStatement a) [.returnStatement] [a] := .ofKind rfl
instance : Made (sequenceExpression a) [.sequenceExpression] [a] := .ofKind rfl
instance : Made (spreadElement a) [.spreadElement] [a] := .ofKind rfl
instance : Made superClass [.super] [] := .ofKind rfl
instance : Made (switchCase a b) [.switchCase] [a, b] := .ofKind rfl
instance : Made (switchStatement a b) [.switchStatement] [a, b] := .ofKind rfl
instance : Made (taggedTemplateExpression a b) [.taggedTemplateExpression] [a, b] := .ofKind rfl
instance : Made (templateElement a b c) [.templateElement] [.node (Node.make "Value" [("raw", a), ("cooked", b)]), c] :=
  .ofKind rfl
instance : Made (templateLiteral a b) [.templateLiteral] [a, b] := .ofKind rfl
instance : Made thisExpression [.thisExpression] [] := .ofKind rfl
instance : Made (throwStatement a) [.throwStatement] [a] := .ofKind rfl
instance : Made (tryStatement a b c) [.tryStatement] [a, b, c] := .ofKind rfl
instance : Made (unaryExpression a b) [.unaryExpression] [.bool true, a, b] := .ofKind rfl
instance : Made (updateExpression a b c) [.updateExpression] [a, b, c] := .ofKind rfl
instance : Made (variableDeclaration a b) [.variableDeclaration] [a, b] := .ofKind rfl
instance : Made (variableDeclarator a b) [.variableDeclarator] [a, b] := .ofKind rfl
instance : Made (whileStatement a b) [.whileStatement] [a, b] := .ofKind rfl
instance : Made (withStatement a b) [.withStatement] [a, b] := .ofKind rfl
instance : Made (yieldExpression a b) [.yieldExpression] [a, b] := .ofKind rfl
instance : Made (arrowParameters a) [.arrowParameters] [a, .bool false] := .ofKind rfl
instance : Made (asyncArrowParameters a) [.arrowParameters] [a, .bool true] := .ofKind rfl
instance : Made (jsxClosingElement a) [.jsxClosingElement] [a] := .ofKind rfl
instance : Composed (jsxElement a b c) [.jsxElement] [a, b, c] := .ofKind rfl
instance : Made jsxEmptyExpression [.jsxEmptyExpression] [] := .ofKind rfl
instance : Made (jsxExpressionContainer a) [.jsxExpressionContainer] [a] := .ofKind rfl
instance : Made (jsxIdentifier a) [.jsxIdentifier] [a] := .ofKind rfl
instance : Made (jsxMemberExpression a b) [.jsxMemberExpression] [a, b] := .ofKind rfl
instance : Made (jsxAttribute a b) [.jsxAttribute] [a, b] := .ofKind rfl
instance : Made (jsxNamespacedName a b) [.jsxNamespacedName] [a, b] := .ofKind rfl
instance : Composed (jsxOpeningElement a b c) [.jsxOpeningElement] [a, b, c] := .ofKind rfl
instance : Made (jsxSpreadAttribute a) [.jsxSpreadAttribute] [a] := .ofKind rfl
instance : Made (jsxText a b) [.jsxText] [a, b] := .ofKind rfl

instance : Made (binaryExpression a b c) [.logicalExpression, .binaryExpression] [a, b, c] := by
  have hmade (k : Kind) (hk : k = .logicalExpression ∨ k = .binaryExpression) :
      Made (.ofKind "BinaryExpression" k [("operator", a), ("left", b), ("right", c)])
        [.logicalExpression, .binaryExpression] [a, b, c] := by
    rcases hk with rfl | rfl <;> exact { out := ⟨_, _, _, by simp, rfl, rfl, by simp⟩, common := rfl }
  refine hmade _ ?_
  split <;> simp

instance : Made (importDeclaration a b c d) [.importDeclaration] [a, b, c, d] := by
  refine { out := ⟨_, _, _, List.mem_singleton_self _, ?_, rfl, fun p hp => ?_⟩, common := rfl }
  · dsimp only
    split <;> split <;> rfl
  grind

end Node

end EcmaSyntax
