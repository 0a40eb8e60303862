/-!
# Kinds of nodes

The kinds of the nodes of a syntax tree, and their names. Three of them are never part of a finished
tree: `arrowParameters` stands for parameters whose arrow is still to come, and the two kinds of
comments are those of comments as they are met; once collected, a comment is a `line` or a `block`.
-/

namespace EcmaSyntax

/-- The kind of a node. -/
inductive Kind where
  | assignmentExpression
  | assignmentPattern
  | arrayExpression
  | arrayPattern
  | arrowFunctionExpression
  | awaitExpression
  | blockStatement
  | binaryExpression
  | breakStatement
  | callExpression
  | catchClause
  | chainExpression
  | classBody
  | classDeclaration
  | classExpression
  | conditionalExpression
  | continueStatement
  | doWhileStatement
  | debuggerStatement
  | emptyStatement
  | exportAllDeclaration
  | exportDefaultDeclaration
  | exportNamedDeclaration
  | exportSpecifier
  | exportDefaultSpecifier
  | expressionStatement
  | forStatement
  | forOfStatement
  | forInStatement
  | forAwaitStatement
  | functionDeclaration
  | functionExpression
  | identifier
  | ifStatement
  | importCallee
  | importDeclaration
  | importDefaultSpecifier
  | importNamespaceSpecifier
  | importSpecifier
  | literal
  | labeledStatement
  | logicalExpression
  | memberExpression
  | metaProperty
  | methodDefinition
  | fieldDefinition
  | privateIdentifier
  | staticBlock
  | newExpression
  | objectExpression
  | objectPattern
  | program
  | property
  | restElement
  | returnStatement
  | sequenceExpression
  | spreadElement
  | super
  | switchCase
  | switchStatement
  | taggedTemplateExpression
  | templateElement
  | templateLiteral
  | thisExpression
  | throwStatement
  | tryStatement
  | unaryExpression
  | updateExpression
  | variableDeclaration
  | variableDeclarator
  | whileStatement
  | withStatement
  | yieldExpression
  | jsxAttribute
  | jsxClosingElement
  | jsxElement
  | jsxEmptyExpression
  | jsxExpressionContainer
  | jsxIdentifier
  | jsxMemberExpression
  | jsxNamespacedName
  | jsxOpeningElement
  | jsxSpreadAttribute
  | jsxText
  | arrowParameters
  | lineComment
  | blockComment
  | line
  | block
  deriving DecidableEq, Repr, Inhabited

def Kind.name : Kind → String
  | .assignmentExpression => "AssignmentExpression"
  | .assignmentPattern => "AssignmentPattern"
  | .arrayExpression => "ArrayExpression"
  | .arrayPattern => "ArrayPattern"
  | .arrowFunctionExpression => "ArrowFunctionExpression"
  | .awaitExpression => "AwaitExpression"
  | .blockStatement => "BlockStatement"
  | .binaryExpression => "BinaryExpression"
  | .breakStatement => "BreakStatement"
  | .callExpression => "CallExpression"
  | .catchClause => "CatchClause"
  | .chainExpression => "ChainExpression"
  | .classBody => "ClassBody"
  | .classDeclaration => "ClassDeclaration"
  | .classExpression => "ClassExpression"
  | .conditionalExpression => "ConditionalExpression"
  | .continueStatement => "ContinueStatement"
  | .doWhileStatement => "DoWhileStatement"
  | .debuggerStatement => "DebuggerStatement"
  | .emptyStatement => "EmptyStatement"
  | .exportAllDeclaration => "ExportAllDeclaration"
  | .exportDefaultDeclaration => "ExportDefaultDeclaration"
  | .exportNamedDeclaration => "ExportNamedDeclaration"
  | .exportSpecifier => "ExportSpecifier"
  | .exportDefaultSpecifier => "ExportDefaultSpecifier"
  | .expressionStatement => "ExpressionStatement"
  | .forStatement => "ForStatement"
  | .forOfStatement => "ForOfStatement"
  | .forInStatement => "ForInStatement"
  | .forAwaitStatement => "ForAwaitStatement"
  | .functionDeclaration => "FunctionDeclaration"
  | .functionExpression => "FunctionExpression"
  | .identifier => "Identifier"
  | .ifStatement => "IfStatement"
  | .importCallee => "Import"
  | .importDeclaration => "ImportDeclaration"
  | .importDefaultSpecifier => "ImportDefaultSpecifier"
  | .importNamespaceSpecifier => "ImportNamespaceSpecifier"
  | .importSpecifier => "ImportSpecifier"
  | .literal => "Literal"
  | .labeledStatement => "LabeledStatement"
  | .logicalExpression => "LogicalExpression"
  | .memberExpression => "MemberExpression"
  | .metaProperty => "MetaProperty"
  | .methodDefinition => "MethodDefinition"
  | .fieldDefinition => "FieldDefinition"
  | .privateIdentifier => "PrivateIdentifier"
  | .staticBlock => "StaticBlock"
  | .newExpression => "NewExpression"
  | .objectExpression => "ObjectExpression"
  | .objectPattern => "ObjectPattern"
  | .program => "Program"
  | .property => "Property"
  | .restElement => "RestElement"
  | .returnStatement => "ReturnStatement"
  | .sequenceExpression => "SequenceExpression"
  | .spreadElement => "SpreadElement"
  | .super => "Super"
  | .switchCase => "SwitchCase"
  | .switchStatement => "SwitchStatement"
  | .taggedTemplateExpression => "TaggedTemplateExpression"
  | .templateElement => "TemplateElement"
  | .templateLiteral => "TemplateLiteral"
  | .thisExpression => "ThisExpression"
  | .throwStatement => "ThrowStatement"
  | .tryStatement => "TryStatement"
  | .unaryExpression => "UnaryExpression"
  | .updateExpression => "UpdateExpression"
  | .variableDeclaration => "VariableDeclaration"
  | .variableDeclarator => "VariableDeclarator"
  | .whileStatement => "WhileStatement"
  | .withStatement => "WithStatement"
  | .yieldExpression => "YieldExpression"
  | .jsxAttribute => "JSXAttribute"
  | .jsxClosingElement => "JSXClosingElement"
  | .jsxElement => "JSXElement"
  | .jsxEmptyExpression => "JSXEmptyExpression"
  | .jsxExpressionContainer => "JSXExpressionContainer"
  | .jsxIdentifier => "JSXIdentifier"
  | .jsxMemberExpression => "JSXMemberExpression"
  | .jsxNamespacedName => "JSXNamespacedName"
  | .jsxOpeningElement => "JSXOpeningElement"
  | .jsxSpreadAttribute => "JSXSpreadAttribute"
  | .jsxText => "JSXText"
  | .arrowParameters => "ArrowParameterPlaceHolder"
  | .lineComment => "LineComment"
  | .blockComment => "BlockComment"
  | .line => "Line"
  | .block => "Block"

end EcmaSyntax
