import EcmaSyntax.Error
import EcmaSyntax.Node.Basic

/-!
# Making nodes

One function for each form of node, with its parts as arguments, in the order in which people give
them; the attributes are in an order of their own. `construct` makes a node from the name of its
form, for those who build trees from data: parts that may be left out are then false.
-/

namespace EcmaSyntax

instance : Coe Node Value := ⟨.node⟩
instance : Coe (List Node) Value := ⟨.nodes⟩
instance : Coe (Option Node) Value := ⟨.node?⟩
instance : Coe Bool Value := ⟨.bool⟩
instance : Coe Text Value := ⟨.text⟩

namespace Node

def ofKind (form : String) (k : Kind) (parts : List (String × Value)) : Node :=
  make form (("type", .kind k) :: parts)

/-- An array literal; null stands for a hole. -/
def arrayExpression (elements : Value) : Node :=
  ofKind "ArrayExpression" .arrayExpression [("elements", elements)]

def arrayPattern (elements : Value) : Node :=
  ofKind "ArrayPattern" .arrayPattern [("elements", elements)]

/-- An arrow function; `expression` if its body is one. -/
def arrowFunctionExpression (params body expression : Value) : Node :=
  ofKind "ArrowFunctionExpression" .arrowFunctionExpression [("generator", .bool false),
    ("isAsync", .bool false), ("params", params), ("body", body), ("expression", expression)]

def asyncArrowFunctionExpression (params body expression : Value) : Node :=
  ofKind "AsyncArrowFunctionExpression" .arrowFunctionExpression [("generator", .bool false),
    ("isAsync", .bool true), ("params", params), ("body", body), ("expression", expression)]

def assignmentExpression (operator left right : Value) : Node :=
  ofKind "AssignmentExpression" .assignmentExpression [("operator", operator), ("left", left),
    ("right", right)]

def assignmentPattern (left right : Value) : Node :=
  ofKind "AssignmentPattern" .assignmentPattern [("left", left), ("right", right)]

def asyncFunctionDeclaration (id params body generator : Value) : Node :=
  ofKind "AsyncFunctionDeclaration" .functionDeclaration [("generator", generator),
    ("expression", .bool false), ("isAsync", .bool true), ("id", id), ("params", params),
    ("body", body)]

def asyncFunctionExpression (id params body generator : Value) : Node :=
  ofKind "AsyncFunctionExpression" .functionExpression [("generator", generator),
    ("expression", .bool false), ("isAsync", .bool true), ("id", id), ("params", params),
    ("body", body)]

def functionDeclaration (id params body generator : Value) : Node :=
  ofKind "FunctionDeclaration" .functionDeclaration [("expression", .bool false),
    ("isAsync", .bool false), ("id", id), ("params", params), ("body", body),
    ("generator", generator)]

def functionExpression (id params body generator : Value) : Node :=
  ofKind "FunctionExpression" .functionExpression [("expression", .bool false),
    ("isAsync", .bool false), ("id", id), ("params", params), ("body", body),
    ("generator", generator)]

def awaitExpression (argument : Value) : Node :=
  ofKind "AwaitExpression" .awaitExpression [("argument", argument)]

def blockStatement (body : Value) : Node := ofKind "BlockStatement" .blockStatement [("body", body)]

/-- A break, with its label if it has one. -/
def breakStatement (label : Value) : Node :=
  ofKind "BreakStatement" .breakStatement [("label", label)]

/-- A call; `optional` if it is skipped for no callee. -/
def callExpression (callee args optional : Value) : Node :=
  ofKind "CallExpression" .callExpression [("callee", callee), ("arguments", args),
    ("optional", optional)]

def catchClause (param body : Value) : Node :=
  ofKind "CatchClause" .catchClause [("param", param), ("body", body)]

def chainExpression (expression : Value) : Node :=
  ofKind "ChainExpression" .chainExpression [("expression", expression)]

def classBody (body : Value) : Node := ofKind "ClassBody" .classBody [("body", body)]

def classDeclaration (id superClass body : Value) : Node :=
  ofKind "ClassDeclaration" .classDeclaration [("id", id), ("superClass", superClass),
    ("body", body)]

def classExpression (id superClass body : Value) : Node :=
  ofKind "ClassExpression" .classExpression [("id", id), ("superClass", superClass), ("body", body)]

def computedMemberExpression (object property optional : Value) : Node :=
  ofKind "ComputedMemberExpression" .memberExpression [("computed", .bool true), ("object", object),
    ("property", property), ("optional", optional)]

def staticMemberExpression (object property optional : Value) : Node :=
  ofKind "StaticMemberExpression" .memberExpression [("computed", .bool false), ("object", object),
    ("property", property), ("optional", optional)]

def conditionalExpression (test consequent alternate : Value) : Node :=
  ofKind "ConditionalExpression" .conditionalExpression [("test", test), ("consequent", consequent),
    ("alternate", alternate)]

/-- A continue, with its label if it has one. -/
def continueStatement (label : Value) : Node :=
  ofKind "ContinueStatement" .continueStatement [("label", label)]

def debuggerStatement : Node := ofKind "DebuggerStatement" .debuggerStatement []

/-- A directive: a statement that is a string, and its text. -/
def directive (expression directive : Value) : Node :=
  ofKind "Directive" .expressionStatement [("expression", expression), ("directive", directive)]

def doWhileStatement (body test : Value) : Node :=
  ofKind "DoWhileStatement" .doWhileStatement [("body", body), ("test", test)]

/-- An empty statement. -/
def emptyStatement : Node := ofKind "EmptyStatement" .emptyStatement []

def exportAllDeclaration (source : Value) : Node :=
  ofKind "ExportAllDeclaration" .exportAllDeclaration [("source", source)]

def exportDefaultDeclaration (declaration : Value) : Node :=
  ofKind "ExportDefaultDeclaration" .exportDefaultDeclaration [("declaration", declaration)]

def exportNamedDeclaration (declaration specifiers source : Value) : Node :=
  ofKind "ExportNamedDeclaration" .exportNamedDeclaration [("declaration", declaration),
    ("specifiers", specifiers), ("source", source)]

def exportSpecifier (localName exported : Value) : Node :=
  ofKind "ExportSpecifier" .exportSpecifier [("exported", exported), ("local", localName)]

def exportDefaultSpecifier (localName : Value) : Node :=
  ofKind "ExportDefaultSpecifier" .exportDefaultSpecifier [("local", localName)]

def expressionStatement (expression : Value) : Node :=
  ofKind "ExpressionStatement" .expressionStatement [("expression", expression)]

def forInStatement (left right body : Value) : Node :=
  ofKind "ForInStatement" .forInStatement [("each", .bool false), ("left", left), ("right", right),
    ("body", body)]

def forOfStatement (left right body : Value) : Node :=
  ofKind "ForOfStatement" .forOfStatement [("left", left), ("right", right), ("body", body)]

def forAwaitStatement (left right body : Value) : Node :=
  ofKind "ForAwaitStatement" .forAwaitStatement [("left", left), ("right", right), ("body", body)]

def forStatement (init test update body : Value) : Node :=
  ofKind "ForStatement" .forStatement [("init", init), ("test", test), ("update", update),
    ("body", body)]

def identifier (name : Value) : Node := ofKind "Identifier" .identifier [("name", name)]

def privateIdentifier (name : Value) : Node :=
  ofKind "PrivateIdentifier" .privateIdentifier [("name", name)]

def staticBlock (body : Value) : Node := ofKind "StaticBlock" .staticBlock [("body", body)]

def ifStatement (test consequent alternate : Value) : Node :=
  ofKind "IfStatement" .ifStatement [("test", test), ("consequent", consequent),
    ("alternate", alternate)]

def importCallee : Node := ofKind "Import" .importCallee []

def importDefaultSpecifier (localName : Value) : Node :=
  ofKind "ImportDefaultSpecifier" .importDefaultSpecifier [("local", localName)]

def importNamespaceSpecifier (localName : Value) : Node :=
  ofKind "ImportNamespaceSpecifier" .importNamespaceSpecifier [("local", localName)]

def importSpecifier (localName imported : Value) : Node :=
  ofKind "ImportSpecifier" .importSpecifier [("local", localName), ("imported", imported)]

def labeledStatement (label body : Value) : Node :=
  ofKind "LabeledStatement" .labeledStatement [("label", label), ("body", body)]

def literal (value raw : Value) : Node := ofKind "Literal" .literal [("value", value), ("raw", raw)]

def metaProperty (owner property : Value) : Node :=
  ofKind "MetaProperty" .metaProperty [("meta", owner), ("property", property)]

def methodDefinition (key computed value kind isStatic : Value) : Node :=
  ofKind "MethodDefinition" .methodDefinition [("key", key), ("computed", computed),
    ("value", value), ("kind", kind), ("static", isStatic)]

def fieldDefinition (key computed value kind isStatic : Value) : Node :=
  ofKind "FieldDefinition" .fieldDefinition [("key", key), ("computed", computed), ("value", value),
    ("kind", kind), ("static", isStatic)]

def moduleProgram (body : Value) : Node :=
  ofKind "Module" .program [("sourceType", .word "module"), ("body", body)]

def scriptProgram (body : Value) : Node :=
  ofKind "Script" .program [("sourceType", .word "script"), ("body", body)]

def newExpression (callee args : Value) : Node :=
  ofKind "NewExpression" .newExpression [("callee", callee), ("arguments", args)]

def objectExpression (properties : Value) : Node :=
  ofKind "ObjectExpression" .objectExpression [("properties", properties)]

def objectPattern (properties : Value) : Node :=
  ofKind "ObjectPattern" .objectPattern [("properties", properties)]

def property (kind key computed value method shorthand : Value) : Node :=
  ofKind "Property" .property [("key", key), ("computed", computed), ("value", value),
    ("kind", kind), ("method", method), ("shorthand", shorthand)]

/-- A regular expression: compiled, as written, and its two parts. -/
def regexLiteral (value raw pattern flags : Value) : Node :=
  ofKind "RegexLiteral" .literal [("value", value), ("raw", raw),
    ("regex", .node (make "RegExp" [("pattern", pattern), ("flags", flags)]))]

def restElement (argument : Value) : Node :=
  ofKind "RestElement" .restElement [("argument", argument)]

def returnStatement (argument : Value) : Node :=
  ofKind "ReturnStatement" .returnStatement [("argument", argument)]

def sequenceExpression (expressions : Value) : Node :=
  ofKind "SequenceExpression" .sequenceExpression [("expressions", expressions)]

def spreadElement (argument : Value) : Node :=
  ofKind "SpreadElement" .spreadElement [("argument", argument)]

def superClass : Node := ofKind "Super" .super []

/-- A clause of a switch; a null test is the default. -/
def switchCase (test consequent : Value) : Node :=
  ofKind "SwitchCase" .switchCase [("test", test), ("consequent", consequent)]

def switchStatement (discriminant cases : Value) : Node :=
  ofKind "SwitchStatement" .switchStatement [("discriminant", discriminant), ("cases", cases)]

def taggedTemplateExpression (tag quasi : Value) : Node :=
  ofKind "TaggedTemplateExpression" .taggedTemplateExpression [("tag", tag), ("quasi", quasi)]

def templateElement (raw cooked tail : Value) : Node :=
  ofKind "TemplateElement" .templateElement [
    ("value", .node (make "Value" [("raw", raw), ("cooked", cooked)])), ("tail", tail)]

/-- A template: chunks and what stands between them. -/
def templateLiteral (quasis expressions : Value) : Node :=
  ofKind "TemplateLiteral" .templateLiteral [("quasis", quasis), ("expressions", expressions)]

def thisExpression : Node := ofKind "ThisExpression" .thisExpression []

def throwStatement (argument : Value) : Node :=
  ofKind "ThrowStatement" .throwStatement [("argument", argument)]

def tryStatement (block handler finalizer : Value) : Node :=
  ofKind "TryStatement" .tryStatement [("block", block), ("handler", handler),
    ("finalizer", finalizer)]

def unaryExpression (operator argument : Value) : Node :=
  ofKind "UnaryExpression" .unaryExpression [("prefix", .bool true), ("operator", operator),
    ("argument", argument)]

/-- An increment or decrement; `before` if the operator comes first. -/
def updateExpression (operator argument before : Value) : Node :=
  ofKind "UpdateExpression" .updateExpression [("operator", operator), ("argument", argument),
    ("prefix", before)]

def variableDeclaration (declarations kind : Value) : Node :=
  ofKind "VariableDeclaration" .variableDeclaration [("declarations", declarations), ("kind", kind)]

def variableDeclarator (id init : Value) : Node :=
  ofKind "VariableDeclarator" .variableDeclarator [("id", id), ("init", init)]

def whileStatement (test body : Value) : Node :=
  ofKind "WhileStatement" .whileStatement [("test", test), ("body", body)]

def withStatement (object body : Value) : Node :=
  ofKind "WithStatement" .withStatement [("object", object), ("body", body)]

/-- A yield; `delegate` if it hands over to another generator. -/
def yieldExpression (argument delegate : Value) : Node :=
  ofKind "YieldExpression" .yieldExpression [("argument", argument), ("delegate", delegate)]

/-- Parameters whose arrow is still to come. -/
def arrowParameters (params : Value) : Node :=
  ofKind "ArrowParameterPlaceHolder" .arrowParameters [("params", params), ("isAsync", .bool false)]

/-- Parameters of an asynchronous arrow function still to come. -/
def asyncArrowParameters (params : Value) : Node :=
  ofKind "AsyncArrowParameterPlaceHolder" .arrowParameters [("params", params),
    ("isAsync", .bool true)]

def blockComment (value : Value) : Node := ofKind "BlockComment" .blockComment [("value", value)]

/-- A comment up to the end of its line. -/
def lineComment (value : Value) : Node := ofKind "LineComment" .lineComment [("value", value)]

def jsxClosingElement (name : Value) : Node :=
  ofKind "JSXClosingElement" .jsxClosingElement [("name", name)]

def jsxElement (openingElement children closingElement : Value) : Node :=
  ofKind "JSXElement" .jsxElement [("openingElement", openingElement), ("children", children),
    ("closingElement", closingElement)]

def jsxEmptyExpression : Node := ofKind "JSXEmptyExpression" .jsxEmptyExpression []

def jsxExpressionContainer (expression : Value) : Node :=
  ofKind "JSXExpressionContainer" .jsxExpressionContainer [("expression", expression)]

def jsxIdentifier (name : Value) : Node := ofKind "JSXIdentifier" .jsxIdentifier [("name", name)]

def jsxMemberExpression (object property : Value) : Node :=
  ofKind "JSXMemberExpression" .jsxMemberExpression [("object", object), ("property", property)]

def jsxAttribute (name value : Value) : Node :=
  ofKind "JSXAttribute" .jsxAttribute [("name", name), ("value", value)]

/-- A name with a colon. -/
def jsxNamespacedName (space name : Value) : Node :=
  ofKind "JSXNamespacedName" .jsxNamespacedName [("namespace", space), ("name", name)]

def jsxOpeningElement (name selfClosing attributes : Value) : Node :=
  ofKind "JSXOpeningElement" .jsxOpeningElement [("name", name), ("selfClosing", selfClosing),
    ("attributes", attributes)]

def jsxSpreadAttribute (argument : Value) : Node :=
  ofKind "JSXSpreadAttribute" .jsxSpreadAttribute [("argument", argument)]

def jsxText (value raw : Value) : Node := ofKind "JSXText" .jsxText [("value", value), ("raw", raw)]

/-- An expression with an operator between its operands; two operators make it a logical one. -/
def binaryExpression (operator left right : Value) : Node :=
  let isLogical := match operator with
    | .text t => t.isAny ["||", "&&"]
    | _ => false
  ofKind "BinaryExpression" (if isLogical then .logicalExpression else .binaryExpression)
    [("operator", operator), ("left", left), ("right", right)]

/-- An import; assertions and attributes are there only if they are given. -/
def importDeclaration (specifiers source assertions attributes : Value) : Node :=
  let given (name : String) (v : Value) := if v.isNull then [] else [(name, v)]
  ofKind "ImportDeclaration" .importDeclaration
    ([("specifiers", specifiers), ("source", source)]
      ++ given "assertions" assertions ++ given "attributes" attributes)

/-- A node from the name of its form and its parts. There may be no such form, or the parts may not
fit it. -/
def construct (form : String) (parts : List Value) : Except Fault Node :=
  match form, parts with
  | "ArrayExpression", [a] => return arrayExpression a
  | "ArrayPattern", [a] => return arrayPattern a
  | "ArrowFunctionExpression", [a, b, c] => return arrowFunctionExpression a b c
  | "AsyncArrowFunctionExpression", [a, b, c] => return asyncArrowFunctionExpression a b c
  | "AssignmentExpression", [a, b, c] => return assignmentExpression a b c
  | "AssignmentPattern", [a, b] => return assignmentPattern a b
  | "AsyncFunctionDeclaration", [a, b, c] => return asyncFunctionDeclaration a b c (.bool false)
  | "AsyncFunctionDeclaration", [a, b, c, d] => return asyncFunctionDeclaration a b c d
  | "AsyncFunctionExpression", [a, b, c] => return asyncFunctionExpression a b c (.bool false)
  | "AsyncFunctionExpression", [a, b, c, d] => return asyncFunctionExpression a b c d
  | "FunctionDeclaration", [a, b, c, d] => return functionDeclaration a b c d
  | "FunctionExpression", [a, b, c, d] => return functionExpression a b c d
  | "AwaitExpression", [a] => return awaitExpression a
  | "BlockStatement", [a] => return blockStatement a
  | "BreakStatement", [a] => return breakStatement a
  | "CallExpression", [a, b] => return callExpression a b (.bool false)
  | "CallExpression", [a, b, c] => return callExpression a b c
  | "CatchClause", [a, b] => return catchClause a b
  | "ChainExpression", [a] => return chainExpression a
  | "ClassBody", [a] => return classBody a
  | "ClassDeclaration", [a, b, c] => return classDeclaration a b c
  | "ClassExpression", [a, b, c] => return classExpression a b c
  | "ComputedMemberExpression", [a, b] => return computedMemberExpression a b (.bool false)
  | "ComputedMemberExpression", [a, b, c] => return computedMemberExpression a b c
  | "StaticMemberExpression", [a, b] => return staticMemberExpression a b (.bool false)
  | "StaticMemberExpression", [a, b, c] => return staticMemberExpression a b c
  | "ConditionalExpression", [a, b, c] => return conditionalExpression a b c
  | "ContinueStatement", [a] => return continueStatement a
  | "DebuggerStatement", [] => return debuggerStatement
  | "Directive", [a, b] => return directive a b
  | "DoWhileStatement", [a, b] => return doWhileStatement a b
  | "EmptyStatement", [] => return emptyStatement
  | "ExportAllDeclaration", [a] => return exportAllDeclaration a
  | "ExportDefaultDeclaration", [a] => return exportDefaultDeclaration a
  | "ExportNamedDeclaration", [a, b, c] => return exportNamedDeclaration a b c
  | "ExportSpecifier", [a, b] => return exportSpecifier a b
  | "ExportDefaultSpecifier", [a] => return exportDefaultSpecifier a
  | "ExpressionStatement", [a] => return expressionStatement a
  | "ForInStatement", [a, b, c] => return forInStatement a b c
  | "ForOfStatement", [a, b, c] => return forOfStatement a b c
  | "ForAwaitStatement", [a, b, c] => return forAwaitStatement a b c
  | "ForStatement", [a, b, c, d] => return forStatement a b c d
  | "Identifier", [a] => return identifier a
  | "PrivateIdentifier", [a] => return privateIdentifier a
  | "StaticBlock", [a] => return staticBlock a
  | "IfStatement", [a, b, c] => return ifStatement a b c
  | "Import", [] => return importCallee
  | "ImportDefaultSpecifier", [a] => return importDefaultSpecifier a
  | "ImportNamespaceSpecifier", [a] => return importNamespaceSpecifier a
  | "ImportSpecifier", [a, b] => return importSpecifier a b
  | "LabeledStatement", [a, b] => return labeledStatement a b
  | "Literal", [a, b] => return literal a b
  | "MetaProperty", [a, b] => return metaProperty a b
  | "MethodDefinition", [a, b, c, d, e] => return methodDefinition a b c d e
  | "FieldDefinition", [a, b, c, d, e] => return fieldDefinition a b c d e
  | "Module", [a] => return moduleProgram a
  | "Script", [a] => return scriptProgram a
  | "NewExpression", [a, b] => return newExpression a b
  | "ObjectExpression", [a] => return objectExpression a
  | "ObjectPattern", [a] => return objectPattern a
  | "Property", [a, b, c, d, e, f] => return property a b c d e f
  | "RegexLiteral", [a, b, c, d] => return regexLiteral a b c d
  | "RestElement", [a] => return restElement a
  | "ReturnStatement", [a] => return returnStatement a
  | "SequenceExpression", [a] => return sequenceExpression a
  | "SpreadElement", [a] => return spreadElement a
  | "Super", [] => return superClass
  | "SwitchCase", [a, b] => return switchCase a b
  | "SwitchStatement", [a, b] => return switchStatement a b
  | "TaggedTemplateExpression", [a, b] => return taggedTemplateExpression a b
  | "TemplateElement", [a, b, c] => return templateElement a b c
  | "TemplateLiteral", [a, b] => return templateLiteral a b
  | "ThisExpression", [] => return thisExpression
  | "ThrowStatement", [a] => return throwStatement a
  | "TryStatement", [a, b, c] => return tryStatement a b c
  | "UnaryExpression", [a, b] => return unaryExpression a b
  | "UpdateExpression", [a, b, c] => return updateExpression a b c
  | "VariableDeclaration", [a, b] => return variableDeclaration a b
  | "VariableDeclarator", [a, b] => return variableDeclarator a b
  | "WhileStatement", [a, b] => return whileStatement a b
  | "WithStatement", [a, b] => return withStatement a b
  | "YieldExpression", [a, b] => return yieldExpression a b
  | "ArrowParameterPlaceHolder", [a] => return arrowParameters a
  | "AsyncArrowParameterPlaceHolder", [a] => return asyncArrowParameters a
  | "BlockComment", [a] => return blockComment a
  | "LineComment", [a] => return lineComment a
  | "JSXClosingElement", [a] => return jsxClosingElement a
  | "JSXElement", [a, b, c] => return jsxElement a b c
  | "JSXEmptyExpression", [] => return jsxEmptyExpression
  | "JSXExpressionContainer", [a] => return jsxExpressionContainer a
  | "JSXIdentifier", [a] => return jsxIdentifier a
  | "JSXMemberExpression", [a, b] => return jsxMemberExpression a b
  | "JSXAttribute", [a, b] => return jsxAttribute a b
  | "JSXNamespacedName", [a, b] => return jsxNamespacedName a b
  | "JSXOpeningElement", [a, b, c] => return jsxOpeningElement a b c
  | "JSXSpreadAttribute", [a] => return jsxSpreadAttribute a
  | "JSXText", [a, b] => return jsxText a b
  | "BinaryExpression", [a, b, c] => return binaryExpression a b c
  | "ImportDeclaration", [a, b] => return importDeclaration a b .null .null
  | "ImportDeclaration", [a, b, c] => return importDeclaration a b c .null
  | "ImportDeclaration", [a, b, c, d] => return importDeclaration a b c d
  | "Node", [] => return make "Node" []
  | form, _ => throw (if forms.contains form then .wrongType else .missingAttribute)
where
  forms : List String := ["ArrayExpression", "ArrayPattern", "ArrowFunctionExpression",
    "AsyncArrowFunctionExpression", "AssignmentExpression", "AssignmentPattern",
    "AsyncFunctionDeclaration", "AsyncFunctionExpression", "FunctionDeclaration",
    "FunctionExpression", "AwaitExpression", "BlockStatement", "BreakStatement", "CallExpression",
    "CatchClause", "ChainExpression", "ClassBody", "ClassDeclaration", "ClassExpression",
    "ComputedMemberExpression", "StaticMemberExpression", "ConditionalExpression",
    "ContinueStatement", "DebuggerStatement", "Directive", "DoWhileStatement", "EmptyStatement",
    "ExportAllDeclaration", "ExportDefaultDeclaration", "ExportNamedDeclaration", "ExportSpecifier",
    "ExportDefaultSpecifier", "ExpressionStatement", "ForInStatement", "ForOfStatement",
    "ForAwaitStatement", "ForStatement", "Identifier", "PrivateIdentifier", "StaticBlock",
    "IfStatement", "Import", "ImportDefaultSpecifier", "ImportNamespaceSpecifier",
    "ImportSpecifier", "LabeledStatement", "Literal", "MetaProperty", "MethodDefinition",
    "FieldDefinition", "Module", "Script", "NewExpression", "ObjectExpression", "ObjectPattern",
    "Property", "RegexLiteral", "RestElement", "ReturnStatement", "SequenceExpression",
    "SpreadElement", "Super", "SwitchCase", "SwitchStatement", "TaggedTemplateExpression",
    "TemplateElement", "TemplateLiteral", "ThisExpression", "ThrowStatement", "TryStatement",
    "UnaryExpression", "UpdateExpression", "VariableDeclaration", "VariableDeclarator",
    "WhileStatement", "WithStatement", "YieldExpression", "ArrowParameterPlaceHolder",
    "AsyncArrowParameterPlaceHolder", "BlockComment", "LineComment", "JSXClosingElement",
    "JSXElement", "JSXEmptyExpression", "JSXExpressionContainer", "JSXIdentifier",
    "JSXMemberExpression", "JSXAttribute", "JSXNamespacedName", "JSXOpeningElement",
    "JSXSpreadAttribute", "JSXText", "BinaryExpression", "ImportDeclaration", "Node"]

end Node

end EcmaSyntax
