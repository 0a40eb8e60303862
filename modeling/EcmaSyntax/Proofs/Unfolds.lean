import EcmaSyntax.Grammar.Program

/-!
# What productions are made of

A property of productions is shown step by step, along the text of each of them. `Unfolds p q` says that `q`
is that text. Where a property has an instance for each step, one more (what holds of `q` holds of `p`) is
enough for most of the productions. Only those that are parts of many others need their own instance, so that
they are not gone through again and again.
-/

namespace EcmaSyntax

/-- A small step is made of the steps `q`. -/
class Expands {τ : Type} (p : τ) (q : outParam τ) : Type where
  eq : p = q

/-- A production is made of the steps `q`. -/
class Unfolds {τ : Type} (p : τ) (q : outParam τ) : Type where
  eq : p = q

@[reducible, instance] def Expands.unfolds {τ : Type} {p q : τ} [h : Expands p q] : Unfolds p q := ⟨h.eq⟩

namespace Expands

open Parse Grammar

-- The type of each is left to Lean: it is the equation that unfolds the step.
variable {α : Type}

abbrev context := mk context.eq_def
abbrev notTarget := mk notTarget.eq_def
abbrev here := mk here.eq_def
abbrev peek := mk Parse.peek.eq_def
abbrev strict := mk strict.eq_def
abbrev since a := mk (since.eq_def a)
abbrev errorBehind a := mk (errorBehind.eq_def a)
abbrev errorAt a b := mk (errorAt.eq_def a b)
abbrev refuse a := mk (@refuse.eq_def α a)
abbrev tolerate a := mk (tolerate.eq_def a)
abbrev refuseAt a b := mk (@refuseAt.eq_def α a b)
abbrev tolerateAt a b := mk (tolerateAt.eq_def a b)
abbrev unexpected a := mk (@unexpected.eq_def α a)
abbrev tolerateToken a := mk (tolerateToken.eq_def a)
abbrev require a b := mk (require.eq_def a b)
abbrev requireNode a := mk (requireNode.eq_def a)
abbrev finish a b := mk (finish.eq_def a b)
abbrev finishFrom a b := mk (finishFrom.eq_def a b)
abbrev cursorMark := mk cursorMark.eq_def
abbrev skip := mk skip.eq_def
abbrev nextRegex := mk nextRegex.eq_def
abbrev rawOf a := mk (rawOf.eq_def a)
abbrev sees a := mk (sees.eq_def a)
abbrev seesAny a := mk (seesAny.eq_def a)
abbrev seesKeyword a := mk (seesKeyword.eq_def a)
abbrev seesKeywords a := mk (seesKeywords.eq_def a)
abbrev seesName a := mk (seesName.eq_def a)
abbrev seesIdentifier := mk seesIdentifier.eq_def
abbrev seesString := mk seesString.eq_def
abbrev seesEnd := mk seesEnd.eq_def
abbrev expect a := mk (expect.eq_def a)
abbrev expectKeyword a := mk (expectKeyword.eq_def a)
abbrev accept a := mk (accept.eq_def a)
abbrev expectComma := mk expectComma.eq_def
abbrev semicolon := mk semicolon.eq_def
abbrev begin := mk begin.eq_def
abbrev refuseSuspect a := mk (refuseSuspect.eq_def a)
abbrev tolerateSuspect a := mk (tolerateSuspect.eq_def a)
abbrev tolerateStricted a := mk (tolerateStricted.eq_def a)
abbrev seesAsyncFunction := mk seesAsyncFunction.eq_def
abbrev nameComplaint a := mk (nameComplaint.eq_def a)
abbrev checkMember a b := mk (checkMember.eq_def a b)
abbrev enterMarkup := mk enterMarkup.eq_def
abbrev nextMarkup := mk nextMarkup.eq_def
abbrev nextMarkupText := mk nextMarkupText.eq_def
abbrev expectMarkup a := mk (expectMarkup.eq_def a)
abbrev seesMarkup a := mk (seesMarkup.eq_def a)
abbrev markupHere := mk markupHere.eq_def
abbrev reenterMarkup := mk reenterMarkup.eq_def
abbrev emptyExpression := mk emptyExpression.eq_def
abbrev resumeTemplate := mk resumeTemplate.eq_def
abbrev seenPrecedence := mk seenPrecedence.eq_def
abbrev expectArrow := mk expectArrow.eq_def
abbrev seesImportBefore a := mk (seesImportBefore.eq_def a)
abbrev accessTarget a := mk (accessTarget.eq_def a)
abbrev checkUpdated a b := mk (checkUpdated.eq_def a b)
abbrev coverFormals a := mk (coverFormals.eq_def a)
abbrev seesAssignment := mk seesAssignment.eq_def
abbrev checkDeclared a := mk (checkDeclared.eq_def a)
abbrev seesLexicalDeclaration := mk seesLexicalDeclaration.eq_def
abbrev closeHead := mk closeHead.eq_def
abbrev missingStatement := mk missingStatement.eq_def
abbrev refuseAwait a := mk (refuseAwait.eq_def a)
abbrev refuseMissingFrom := mk (refuseMissingFrom.eq_def (α := α))

attribute [instance] context notTarget here peek strict since errorBehind errorAt refuse tolerate refuseAt tolerateAt
  unexpected tolerateToken require requireNode finish finishFrom cursorMark skip nextRegex rawOf sees seesAny
  seesKeyword seesKeywords seesName seesIdentifier seesString seesEnd expect expectKeyword accept expectComma
  semicolon begin refuseSuspect tolerateSuspect tolerateStricted seesAsyncFunction nameComplaint checkMember
  enterMarkup nextMarkup nextMarkupText expectMarkup seesMarkup markupHere reenterMarkup emptyExpression
  resumeTemplate seenPrecedence expectArrow seesImportBefore accessTarget checkUpdated coverFormals seesAssignment
  checkDeclared seesLexicalDeclaration closeHead missingStatement refuseAwait refuseMissingFrom

/-! ### Scans -/

namespace Scanned

open Scan

abbrev decimalLiteral a b := mk (decimalLiteral.eq_def a b)
abbrev octalLiteral a b := mk (octalLiteral.eq_def a b)
abbrev binaryLiteral a := mk (binaryLiteral.eq_def a)
abbrev hexLiteral a := mk (hexLiteral.eq_def a)
abbrev numericLiteral := mk numericLiteral.eq_def
abbrev stringLiteral := mk stringLiteral.eq_def
abbrev regexFlags := mk regexFlags.eq_def
abbrev privateName := mk privateName.eq_def
abbrev endNumber := mk endNumber.eq_def
abbrev endDigits := mk endDigits.eq_def
abbrev digits := mk digits.eq_def
abbrev stringRound a b := mk (stringRound.eq_def a b)
abbrev require a b := mk (Scan.require.eq_def a b)
abbrev regexBodyRound a := mk (regexBodyRound.eq_def a)
abbrev regexFlagsRound a := mk (regexFlagsRound.eq_def a)
abbrev templateRound a := mk (templateRound.eq_def a)
abbrev someDigits a := mk (someDigits.eq_def a)
abbrev takeWhile a := mk (takeWhile.eq_def a)
abbrev digitsRound a := mk (digitsRound.eq_def a)
abbrev spelledRound a := mk (spelledRound.eq_def a)
abbrev octalEscape a := mk (octalEscape.eq_def a)
abbrev markupString a := mk (markupString.eq_def a)
abbrev markupText := mk markupText.eq_def
abbrev identifier := mk identifier.eq_def
abbrev plainLex := mk plainLex.eq_def
abbrev hashbang := mk hashbang.eq_def
abbrev entity a := mk (entity.eq_def a)
abbrev bracedEscape := mk bracedEscape.eq_def
abbrev spelledName := mk spelledName.eq_def
abbrev lex := mk lex.eq_def
abbrev fraction? := mk fraction?.eq_def
abbrev exponent := mk exponent.eq_def
abbrev power? := mk power?.eq_def
abbrev markupLex := mk markupLex.eq_def
abbrev take := mk take.eq_def
abbrev regex := mk regex.eq_def

attribute [instance] decimalLiteral octalLiteral binaryLiteral hexLiteral numericLiteral stringLiteral regexFlags
  privateName endNumber endDigits digits stringRound require regexBodyRound regexFlagsRound templateRound someDigits
  takeWhile digitsRound spelledRound octalEscape markupString markupText identifier plainLex hashbang entity
  bracedEscape spelledName lex fraction? exponent power? markupLex take regex

end Scanned

end Expands

namespace Unfolds

open Parse Grammar

variable {α : Type} (r : Recur)

/-! ### Steps -/

abbrev here := mk here.eq_def
abbrev peek := mk peek.eq_def

/-! ### Cover grammars -/

abbrev inherit (p : Parse α) := mk (inherit.eq_def p)

/-! ### Patterns -/

abbrev identifierName := mk identifierName.eq_def
abbrev variableIdentifier a := mk (variableIdentifier.eq_def a)
abbrev bindingRest a := mk (bindingRest.eq_def r a)
abbrev patternWithDefault a := mk (patternWithDefault.eq_def r a)
abbrev arrayPattern a := mk (arrayPattern.eq_def r a)
abbrev propertyPattern a := mk (propertyPattern.eq_def r a)
abbrev restProperty := mk (restProperty.eq_def r)
abbrev objectPattern a := mk (objectPattern.eq_def r a)
abbrev pattern a := mk (pattern.eq_def r a)
abbrev restParameter := mk (restParameter.eq_def r)

/-! ### Functions -/

abbrev expression := mk (expression.eq_def r)
abbrev directive := mk (directive.eq_def r)
abbrev functionBody := mk (functionBody.eq_def r)
abbrev block := mk (block.eq_def r)
abbrev formalParameter a := mk (formalParameter.eq_def r a)
abbrev formalParameters a := mk (formalParameters.eq_def r a)
abbrev withStrictness (f : Formals) (p : Parse α) := mk (withStrictness.eq_def f p)
abbrev methodBody a := mk (methodBody.eq_def r a)
abbrev withYield (allowYield : Bool) (allowAwait : Option Bool) (p : Parse α) :=
  mk (withYield.eq_def allowYield allowAwait p)
abbrev method a := mk (method.eq_def r a)
abbrev plainMethod := mk (plainMethod.eq_def r)
abbrev asyncMethod := mk (asyncMethod.eq_def r)
abbrev getter := mk (getter.eq_def r)
abbrev setter := mk (setter.eq_def r)
abbrev generatorMethod := mk (generatorMethod.eq_def r)
abbrev functionRest a := mk (functionRest.eq_def r a)
abbrev functionIntroduction := mk functionIntroduction.eq_def
abbrev functionDeclaration a := mk (functionDeclaration.eq_def r a)
abbrev functionExpression := mk (functionExpression.eq_def r)

/-! ### Classes -/

abbrev asyncKey a := mk (asyncKey.eq_def r a)
abbrev keyedMember a b c := mk (keyedMember.eq_def r a b c)
abbrev fieldValue a := mk (fieldValue.eq_def r a)
abbrev member a b c := mk (member.eq_def r a b c)
abbrev classElement a := mk (classElement.eq_def r a)
abbrev classBody := mk (classBody.eq_def r)
abbrev classParts a := mk (classParts.eq_def r a)
abbrev classDeclaration a := mk (classDeclaration.eq_def r a)
abbrev classExpression := mk (classExpression.eq_def r)

/-! ### Markup -/

abbrev namespacedName a b := mk (namespacedName.eq_def a b)
abbrev elementName := mk elementName.eq_def
abbrev attributeName := mk attributeName.eq_def
abbrev attributeExpression := mk (attributeExpression.eq_def r)
abbrev attributeValue := mk (attributeValue.eq_def r)
abbrev namedAttribute := mk (namedAttribute.eq_def r)
abbrev spreadAttribute := mk (spreadAttribute.eq_def r)
abbrev attributes := mk (attributes.eq_def r)
abbrev openingRest a := mk (openingRest.eq_def r a)
abbrev openingElement := mk (openingElement.eq_def r)
abbrev boundaryElement := mk (boundaryElement.eq_def r)
abbrev expressionContainer := mk (expressionContainer.eq_def r)
abbrev markupChildren := mk (markupChildren.eq_def r)
abbrev element := mk (element.eq_def r)
abbrev markupRoot := mk (markupRoot.eq_def r)

/-! ### Primary expressions -/

abbrev spreadElement := mk (spreadElement.eq_def r)
abbrev arrayInitializer := mk (arrayInitializer.eq_def r)
abbrev propertyHead a := mk (propertyHead.eq_def r a)
abbrev keyedProperty a b c := mk (keyedProperty.eq_def r a b c)
abbrev propertyValue a b c d := mk (propertyValue.eq_def r a b c d)
abbrev objectInitializer := mk (objectInitializer.eq_def r)
abbrev templateHead := mk templateHead.eq_def
abbrev templateElement := mk templateElement.eq_def
abbrev templateLiteral := mk (templateLiteral.eq_def r)
abbrev closeGroup a := mk (closeGroup.eq_def a)
abbrev groupRest a b := mk (groupRest.eq_def r a b)
abbrev groupExpression := mk (groupExpression.eq_def r)
abbrev importCallee := mk importCallee.eq_def
abbrev importMeta := mk importMeta.eq_def
abbrev literal a := mk (literal.eq_def a)
abbrev keywordExpression a := mk (keywordExpression.eq_def r a)
abbrev markExpression a := mk (markExpression.eq_def r a)

/-! ### Operators -/

abbrev argumentList a := mk (argumentList.eq_def r a)
abbrev arguments := mk (arguments.eq_def r)
abbrev asyncArgument := mk (asyncArgument.eq_def r)
abbrev asyncArguments := mk (asyncArguments.eq_def r)
abbrev newExpression := mk (newExpression.eq_def r)
abbrev computedAccess a b c := mk (computedAccess.eq_def r a b c)
abbrev staticAccess a b c := mk (staticAccess.eq_def a b c)
abbrev optionalLink a b c := mk (optionalLink.eq_def r a b c)
abbrev memberLink a b c := mk (memberLink.eq_def r a b c)
abbrev callLink a b c := mk (callLink.eq_def r a b c)
abbrev chainHead := mk (chainHead.eq_def r)
abbrev callChain := mk (callChain.eq_def r)
abbrev superAccess := mk superAccess.eq_def
abbrev memberChain := mk (memberChain.eq_def r)
abbrev updateExpression := mk (updateExpression.eq_def r)
abbrev awaitExpression := mk (awaitExpression.eq_def r)
abbrev unaryExpression := mk (unaryExpression.eq_def r)
abbrev exponentiation := mk (exponentiation.eq_def r)
abbrev complete a b c := mk (Pending.complete.eq_def a b c)
abbrev shift a b := mk (shift.eq_def r a b)
abbrev binaryExpression := mk (binaryExpression.eq_def r)
abbrev conditional := mk (conditional.eq_def r)
abbrev arrowRest a b c := mk (arrowRest.eq_def r a b c)
abbrev assignmentRest a b := mk (assignmentRest.eq_def r a b)
abbrev yieldExpression := mk (yieldExpression.eq_def r)
abbrev asyncParameter a b := mk (asyncParameter.eq_def r a b)
abbrev assignment := mk (assignment.eq_def r)

/-! ### Declarations -/

abbrev commaSeparated (item : Parse α) := mk (commaSeparated.eq_def item)
abbrev lexicalBinding a b := mk (lexicalBinding.eq_def r a b)
abbrev bindingList a b := mk (bindingList.eq_def r a b)
abbrev lexicalDeclaration := mk (lexicalDeclaration.eq_def r)
abbrev variableDeclaration a := mk (variableDeclaration.eq_def r a)
abbrev variableDeclarationList a := mk (variableDeclarationList.eq_def r a)
abbrev variableStatement := mk (variableStatement.eq_def r)
abbrev usingDeclaration := mk (usingDeclaration.eq_def r)

/-! ### Statements -/

abbrev emptyStatement := mk emptyStatement.eq_def
abbrev expressionStatement := mk (expressionStatement.eq_def r)
abbrev loopBody a := mk (loopBody.eq_def a)
abbrev branch := mk (branch.eq_def r)
abbrev ifStatement := mk (ifStatement.eq_def r)
abbrev doWhileStatement := mk (doWhileStatement.eq_def r)
abbrev whileStatement := mk (whileStatement.eq_def r)
abbrev loopNames a := mk (loopNames.eq_def r a)
abbrev loopValues a := mk (loopValues.eq_def r a)
abbrev withoutIn (p : Parse α) := mk (withoutIn.eq_def p)
abbrev expressionLoopHead a := mk (expressionLoopHead.eq_def r a)
abbrev loopHead a := mk (loopHead.eq_def r a)
abbrev expressionBefore a := mk (expressionBefore.eq_def r a)
abbrev forStatement := mk (forStatement.eq_def r)
abbrev jumpLabel := mk jumpLabel.eq_def
abbrev continueStatement := mk continueStatement.eq_def
abbrev breakStatement := mk breakStatement.eq_def
abbrev returnStatement := mk (returnStatement.eq_def r)
abbrev throwStatement := mk (throwStatement.eq_def r)
abbrev withStatement := mk (withStatement.eq_def r)
abbrev switchCase := mk (switchCase.eq_def r)
abbrev switchCases := mk (switchCases.eq_def r)
abbrev switchStatement := mk (switchStatement.eq_def r)
abbrev labelBody := mk (labelBody.eq_def r)
abbrev labelledStatement := mk (labelledStatement.eq_def r)
abbrev catchParameter := mk (catchParameter.eq_def r)
abbrev catchClause := mk (catchClause.eq_def r)
abbrev finallyClause := mk (finallyClause.eq_def r)
abbrev tryStatement := mk (tryStatement.eq_def r)
abbrev debuggerStatement := mk debuggerStatement.eq_def
abbrev keywordStatement a := mk (keywordStatement.eq_def r a)

/-! ### Programs -/

abbrev moduleSpecifier := mk moduleSpecifier.eq_def
abbrev importSpecifier := mk importSpecifier.eq_def
abbrev inBraces (item : Parse α) := mk (inBraces.eq_def item)
abbrev namedImports := mk namedImports.eq_def
abbrev importDefaultSpecifier := mk importDefaultSpecifier.eq_def
abbrev importNamespaceSpecifier := mk importNamespaceSpecifier.eq_def
abbrev importClause := mk importClause.eq_def
abbrev importedNames := mk importedNames.eq_def
abbrev importAttribute := mk (importAttribute.eq_def r)
abbrev importAttributes := mk (importAttributes.eq_def r)
abbrev importDeclaration := mk (importDeclaration.eq_def r)
abbrev exportSpecifier := mk exportSpecifier.eq_def
abbrev exportDefaultSpecifier := mk exportDefaultSpecifier.eq_def
abbrev exportedDefault := mk (exportedDefault.eq_def r)
abbrev exportedDeclaration := mk (exportedDeclaration.eq_def r)
abbrev exportDeclaration := mk (exportDeclaration.eq_def r)
abbrev item := mk (item.eq_def r)
abbrev programBody := mk (programBody.eq_def r)
abbrev script := mk (script.eq_def r)
abbrev moduleProgram := mk (moduleProgram.eq_def r)

attribute [instance] here peek inherit identifierName variableIdentifier bindingRest patternWithDefault arrayPattern
  propertyPattern restProperty objectPattern pattern restParameter expression directive functionBody block
  formalParameter formalParameters withStrictness methodBody withYield method plainMethod asyncMethod getter setter
  generatorMethod functionRest functionIntroduction functionDeclaration functionExpression asyncKey keyedMember
  fieldValue member classElement classBody classParts classDeclaration classExpression namespacedName elementName
  attributeName attributeExpression attributeValue namedAttribute spreadAttribute attributes openingRest
  openingElement boundaryElement expressionContainer markupChildren element markupRoot spreadElement arrayInitializer
  propertyHead keyedProperty propertyValue objectInitializer templateHead templateElement templateLiteral closeGroup
  groupRest groupExpression importCallee importMeta literal keywordExpression markExpression argumentList arguments
  asyncArgument asyncArguments newExpression computedAccess staticAccess optionalLink memberLink callLink chainHead
  callChain superAccess memberChain updateExpression awaitExpression unaryExpression exponentiation complete shift
  binaryExpression conditional arrowRest assignmentRest yieldExpression asyncParameter assignment commaSeparated
  lexicalBinding bindingList lexicalDeclaration variableDeclaration variableDeclarationList variableStatement
  usingDeclaration emptyStatement expressionStatement loopBody branch ifStatement doWhileStatement whileStatement
  loopNames loopValues withoutIn expressionLoopHead loopHead expressionBefore forStatement jumpLabel continueStatement
  breakStatement returnStatement throwStatement withStatement switchCase switchCases switchStatement labelBody
  labelledStatement catchParameter catchClause finallyClause tryStatement debuggerStatement keywordStatement
  moduleSpecifier importSpecifier inBraces namedImports importDefaultSpecifier importNamespaceSpecifier importClause
  importedNames importAttribute importAttributes importDeclaration exportSpecifier exportDefaultSpecifier
  exportedDefault exportedDeclaration exportDeclaration item programBody script moduleProgram

end Unfolds

namespace Grammar

open Parse

/-! ### Tokens of one kind -/

-- Where a token of one kind is asked for, there is a choice in place of a match.
instance expandsMarkupIdentifier : Expands markupIdentifier (do
    let start ← markupHere
    let t ← nextMarkup
    if t.lexeme matches .jsxIdentifier _ then finish start (.jsxIdentifier t.lexeme.valueText)
    else unexpected t) := by
  refine ⟨bind_congr fun _ => bind_congr fun t => ?_⟩
  cases t.lexeme <;> rfl

instance : Expands attributeString (do
    let start ← markupHere
    let t ← nextMarkup
    if t.lexeme.isString then finish start (.literal t.lexeme.valueText (← rawOf t)) else unexpected t) := by
  refine ⟨bind_congr fun _ => bind_congr fun t => ?_⟩
  cases t.lexeme <;> rfl

instance expandsPropertyName : Expands propertyName (do
    let start ← here
    let t ← next
    if t.lexeme matches .privateName _ then finish start (.privateIdentifier t.lexeme.valueText)
    else if t.lexeme.isIdentifierName then finish start (.identifier (.ofLexeme t.lexeme))
    else unexpected t) := by
  refine ⟨bind_congr fun _ => bind_congr fun t => ?_⟩
  cases t.lexeme <;> rfl

/-! ### Rules -/

variable {depth : Nat}

instance : Unfolds (run (depth + 1)).assignment (assignment (run depth)) := ⟨rfl⟩
instance : Unfolds (run (depth + 1)).exponentiation (exponentiation (run depth)) := ⟨rfl⟩
instance : Unfolds (run (depth + 1)).unary (unaryExpression (run depth)) := ⟨rfl⟩
instance : Unfolds (run (depth + 1)).callChain (callChain (run depth)) := ⟨rfl⟩
instance : Unfolds (run (depth + 1)).memberChain (memberChain (run depth)) := ⟨rfl⟩
instance : Unfolds ((run (depth + 1)).pattern kind) (pattern (run depth) kind) := ⟨rfl⟩
instance : Unfolds (run (depth + 1)).statement (statement (run depth)) := ⟨rfl⟩
instance : Unfolds (run (depth + 1)).item (item (run depth)) := ⟨rfl⟩
instance : Unfolds (run (depth + 1)).element (element (run depth)) := ⟨rfl⟩

end Grammar

end EcmaSyntax
