import AnyFlow.Json.Record
import AnyFlow.Tree.Attribute

namespace AnyFlow

/-- A node that the analysis has no opinion about is of kind `other`. -/
inductive Kind
  | program
  | variableDeclaration (kind : VariableKind)
  | variableDeclarator
  | identifier
  | objectPattern
  | arrayPattern
  | property
  | assignmentPattern
  | restElement
  | typeAscription
  | typeReference
  | keywordType
  | asExpression
  | typeAssertion
  | functionDeclaration
  | functionExpression
  | arrowFunctionExpression
  | blockStatement
  | expressionStatement
  | returnStatement
  | ifStatement
  | whileStatement
  | doWhileStatement
  | forStatement
  | forInStatement
  | forOfStatement
  | switchStatement
  | switchCase
  | conditionalExpression
  | callExpression
  | newExpression
  | memberExpression
  | assignmentExpression (operator : AssignmentOperator)
  /-- The operator stands before its operand when it is `leading`. -/
  | updateExpression (operator : UpdateOperator) (leading : Bool)
  | binaryExpression
  | arrayExpression
  | objectExpression
  | spreadElement
  | literal
  | other
deriving DecidableEq, Inhabited

namespace Kind

def tag : Kind → String
  | .program => "Program"
  | .variableDeclaration _ => "VariableDeclaration"
  | .variableDeclarator => "VariableDeclarator"
  | .identifier => "Identifier"
  | .objectPattern => "ObjectPattern"
  | .arrayPattern => "ArrayPattern"
  | .property => "Property"
  | .assignmentPattern => "AssignmentPattern"
  | .restElement => "RestElement"
  | .typeAscription => "TypeAnnotation"
  | .typeReference => "TypeReference"
  | .keywordType => "KeywordType"
  | .asExpression => "AsExpression"
  | .typeAssertion => "TypeAssertion"
  | .functionDeclaration => "FunctionDeclaration"
  | .functionExpression => "FunctionExpression"
  | .arrowFunctionExpression => "ArrowFunctionExpression"
  | .blockStatement => "BlockStatement"
  | .expressionStatement => "ExpressionStatement"
  | .returnStatement => "ReturnStatement"
  | .ifStatement => "IfStatement"
  | .whileStatement => "WhileStatement"
  | .doWhileStatement => "DoWhileStatement"
  | .forStatement => "ForStatement"
  | .forInStatement => "ForInStatement"
  | .forOfStatement => "ForOfStatement"
  | .switchStatement => "SwitchStatement"
  | .switchCase => "SwitchCase"
  | .conditionalExpression => "ConditionalExpression"
  | .callExpression => "CallExpression"
  | .newExpression => "NewExpression"
  | .memberExpression => "MemberExpression"
  | .assignmentExpression _ => "AssignmentExpression"
  | .updateExpression _ _ => "UpdateExpression"
  | .binaryExpression => "BinaryExpression"
  | .arrayExpression => "ArrayExpression"
  | .objectExpression => "ObjectExpression"
  | .spreadElement => "SpreadElement"
  | .literal => "Literal"
  | .other => "Other"

def bare : List Kind :=
  [.program, .variableDeclarator, .identifier, .objectPattern, .arrayPattern, .property,
    .assignmentPattern, .restElement, .typeAscription, .typeReference, .keywordType,
    .asExpression, .typeAssertion, .functionDeclaration, .functionExpression,
    .arrowFunctionExpression, .blockStatement, .expressionStatement, .returnStatement,
    .ifStatement, .whileStatement, .doWhileStatement, .forStatement, .forInStatement,
    .forOfStatement, .switchStatement, .switchCase, .conditionalExpression, .callExpression,
    .newExpression, .memberExpression, .binaryExpression, .arrayExpression, .objectExpression,
    .spreadElement, .literal, .other]

/-- The kind as messages spell it: its tag, and its attributes in braces. -/
def label : Kind → String
  | .variableDeclaration kind => "VariableDeclaration \x7b kind: " ++ kind.label ++ " \x7d"
  | .assignmentExpression operator =>
    "AssignmentExpression \x7b operator: " ++ operator.label ++ " \x7d"
  | .updateExpression operator leading =>
    "UpdateExpression \x7b operator: " ++ operator.label ++ ", prefix: " ++
      (if leading then "true" else "false") ++ " \x7d"
  | k => k.tag

def isTypeAssertion : Kind → Bool
  | .asExpression | .typeAssertion => true
  | _ => false

def isPattern : Kind → Bool
  | .objectPattern | .arrayPattern | .assignmentPattern | .restElement => true
  | _ => false

open Json

def toDocument (k : Kind) : Document :=
  let tag := ("type", Document.ofText k.tag)
  match k with
  | .variableDeclaration kind => .record [tag, ("kind", .ofText (Keyword.word kind))]
  | .assignmentExpression operator => .record [tag, ("operator", .ofText (Keyword.word operator))]
  | .updateExpression operator leading =>
    .record [tag, ("operator", .ofText (Keyword.word operator)), ("prefix", .bool leading)]
  | _ => .record [tag]

def ofTagged? (tag : String) : Decoder Kind := fun depth d ↦
  if tag = "VariableDeclaration" then do
    let r ← Record.ofDocument? ["kind"] depth d
    return .variableDeclaration (← r.required "kind" Decoder.innerKeyword)
  else if tag = "AssignmentExpression" then do
    let r ← Record.ofDocument? ["operator"] depth d
    return .assignmentExpression (← r.required "operator" Decoder.innerKeyword)
  else if tag = "UpdateExpression" then do
    let r ← Record.ofDocument? ["operator", "prefix"] depth d
    return .updateExpression (← r.required "operator" Decoder.innerKeyword)
      (← r.required "prefix" Decoder.bool)
  else do
    let _ ← Record.ofDocument? [] depth d
    bare.find? (·.tag == tag)

/-- The whole of a kind must have a value, unknown members too. -/
def decode : Decoder Kind := fun depth d ↦
  if d.fits depth then do
    let t ← Tagged.ofDocument? d
    ofTagged? (← Decoder.text depth t.tag) depth t.content
  else none

end Kind

end AnyFlow
