import EcmaSyntax.Text.CodePoint

/-!
# Errors

A source text is refused for a `Cause`; the wording of each is `Cause.message`, in one place. A
`SyntaxError` is a cause at a position, and is what a tolerant run records and goes on from.

A `Fault` is a failure of another kind: a request that the library cannot serve at all, whatever the
source text says. `Failure` joins the two with the case of a run that used up its bound on rounds.
-/

namespace EcmaSyntax

/-- Why a source text is refused. -/
inductive Cause where
  /-- No token starts here, or a token is malformed. -/
  | illegalToken
  | escapedReservedWord
  | invalidHexEscape
  | octalInTemplate
  | invalidPattern
  | unterminatedPattern
  | unexpectedToken (value : Text)
  | unexpectedTemplate (raw : Text)
  | unexpectedEnd
  | unexpectedIdentifier
  | unexpectedNumber
  | unexpectedString
  | unexpectedReserved
  | importCallArity
  | getterArity
  | setterArity
  | setterRestParameter
  | asyncConstructor
  | specialConstructor
  | missingInitializer (kind : String)
  | defaultForRest
  | duplicateBinding (name : Text)
  | duplicateConstructor
  | duplicateProto
  | loopInitializer (loop : String)
  | legacyGenerator
  | illegalBreak
  | illegalContinue
  | misplacedExport
  | misplacedImport
  | misplacedDirective
  | illegalReturn
  | invalidAssignmentTarget
  | invalidForInTarget
  | invalidForLoopTarget
  | invalidModuleSpecifier
  | lexicalLet
  | missingFromClause
  | multipleDefaults
  | newlineAfterThrow
  | missingNamespaceAlias
  | missingHandler
  | restParameterNotLast
  | propertyAfterRest
  | redeclaration (what : String) (name : Text)
  | staticPrototype
  | strictCatchVariable
  | strictDelete
  | strictFunction
  | strictFunctionName
  | strictAssignment
  | strictPostfix
  | strictPrefix
  | strictWith
  | strictOctal
  | duplicateParameter
  | strictParameterName
  | strictReservedWord
  | strictVariableName
  | unknownLabel (name : Text)
  | awaitedForIn
  | importAttributeValue
  | emptyAttributeExpression
  | mismatchedClosingTag (opened : Text)
  /-- A cause that its reporter words freely. -/
  | worded (message : Text)
  deriving DecidableEq, Repr, Inhabited

def Cause.message : Cause → Text
  | .illegalToken => "Unexpected token ILLEGAL"
  | .escapedReservedWord => "Keyword must not contain escaped characters"
  | .invalidHexEscape => "Invalid hexadecimal escape sequence"
  | .octalInTemplate => "Octal literals are not allowed in template strings."
  | .invalidPattern => "Invalid regular expression"
  | .unterminatedPattern => "Invalid regular expression: missing /"
  | .unexpectedToken value => Text.ofString "Unexpected token " ++ value
  | .unexpectedTemplate raw => Text.ofString "Unexpected quasi " ++ raw
  | .unexpectedEnd => "Unexpected end of input"
  | .unexpectedIdentifier => "Unexpected identifier"
  | .unexpectedNumber => "Unexpected number"
  | .unexpectedString => "Unexpected string"
  | .unexpectedReserved => "Unexpected reserved word"
  | .importCallArity => "Unexpected token"
  | .getterArity => "Getter must not have any formal parameters"
  | .setterArity => "Setter must have exactly one formal parameter"
  | .setterRestParameter => "Setter function argument must not be a rest parameter"
  | .asyncConstructor => "Class constructor may not be an async method"
  | .specialConstructor => "Class constructor may not be an accessor"
  | .missingInitializer kind =>
    Text.ofString "Missing initializer in " ++ Text.ofString kind ++ Text.ofString " declaration"
  | .defaultForRest => "Unexpected token ="
  | .duplicateBinding name => Text.ofString "Duplicate binding " ++ name
  | .duplicateConstructor => "A class may only have one constructor"
  | .duplicateProto => "Duplicate __proto__ fields are not allowed in object literals"
  | .loopInitializer loop =>
    Text.ofString loop
      ++ Text.ofString " loop variable declaration may not have an initializer"
  | .legacyGenerator => "Generator declarations are not allowed in legacy contexts"
  | .illegalBreak => "Illegal break statement"
  | .illegalContinue => "Illegal continue statement"
  | .misplacedExport => "Unexpected token"
  | .misplacedImport => "Unexpected token"
  | .misplacedDirective =>
    "Illegal 'use strict' directive in function with non-simple parameter list"
  | .illegalReturn => "Illegal return statement"
  | .invalidAssignmentTarget => "Invalid left-hand side in assignment"
  | .invalidForInTarget => "Invalid left-hand side in for-in"
  | .invalidForLoopTarget => "Invalid left-hand side in for-loop"
  | .invalidModuleSpecifier => "Unexpected token"
  | .lexicalLet => "let is disallowed as a lexically bound name"
  | .missingFromClause => "Unexpected token"
  | .multipleDefaults => "More than one default clause in switch statement"
  | .newlineAfterThrow => "Illegal newline after throw"
  | .missingNamespaceAlias => "Unexpected token"
  | .missingHandler => "Missing catch or finally after try"
  | .restParameterNotLast => "Rest parameter must be last formal parameter"
  | .propertyAfterRest => "Unexpected token"
  | .redeclaration what name =>
    Text.ofString what ++ Text.ofString " '" ++ name
      ++ Text.ofString "' has already been declared"
  | .staticPrototype => "Classes may not have static property named prototype"
  | .strictCatchVariable => "Catch variable may not be eval or arguments in strict mode"
  | .strictDelete => "Delete of an unqualified identifier in strict mode."
  | .strictFunction =>
    "In strict mode code, functions can only be declared at top level or inside a block"
  | .strictFunctionName => "Function name may not be eval or arguments in strict mode"
  | .strictAssignment => "Assignment to eval or arguments is not allowed in strict mode"
  | .strictPostfix =>
    "Postfix increment/decrement may not have eval or arguments operand in strict mode"
  | .strictPrefix =>
    "Prefix increment/decrement may not have eval or arguments operand in strict mode"
  | .strictWith => "Strict mode code may not include a with statement"
  | .strictOctal => "Octal literals are not allowed in strict mode."
  | .duplicateParameter => "Strict mode function may not have duplicate parameter names"
  | .strictParameterName => "Parameter name eval or arguments is not allowed in strict mode"
  | .strictReservedWord => "Use of future reserved word in strict mode"
  | .strictVariableName => "Variable name may not be eval or arguments in strict mode"
  | .unknownLabel name => Text.ofString "Undefined label '" ++ name ++ Text.ofString "'"
  | .awaitedForIn => "for-await can only be used with for-of loops, not for-in"
  | .importAttributeValue => "Import assertion/attribute value must be a string literal"
  | .emptyAttributeExpression => "JSX attributes must only be assigned a non-empty expression"
  | .mismatchedClosingTag opened =>
    Text.ofString "Expected corresponding JSX closing tag for " ++ opened
  | .worded message => message

/-- A cause of refusal at a position: the offset, the line and the column, counted from one. -/
structure SyntaxError where
  index : Int
  line : Int
  column : Int
  cause : Cause
  deriving DecidableEq, Repr, Inhabited

/-- The full wording: the line, then the cause. -/
def SyntaxError.message (e : SyntaxError) : Text :=
  Text.ofString "Line " ++ Text.ofInt e.line ++ Text.ofString ": " ++ e.cause.message

/-- A failure that is no refusal of the source text. -/
inductive Fault where
  /-- A precondition of the requested operation does not hold. -/
  | unmetCondition
  /-- A list or a text was read past one of its ends. -/
  | outOfRange
  /-- A text is not the numeral it has to be, or a number is not a code point. -/
  | invalidValue
  /-- A number does not fit where a code point is wanted. -/
  | overflow
  /-- A value has the wrong type for the operation. -/
  | wrongType
  /-- A value has no such attribute. -/
  | missingAttribute
  /-- A walk met an object inside itself and was told to give up. -/
  | recursion
  /-- A file that is to be read is not there. -/
  | missingFile
  deriving DecidableEq, Repr, Inhabited

/-- How a run fails: a refusal, a fault, or its bound on rounds used up. -/
inductive Failure where
  | refused (e : SyntaxError)
  | fault (f : Fault)
  | exhausted
  deriving DecidableEq, Repr, Inhabited

end EcmaSyntax
