import AnyFlow.Rule.Basic
import AnyFlow.Rule.Pattern

namespace AnyFlow.Rule

variable (t : Tree)

/-- The variable of a loop over values or keys gets its value from the loop. -/
def isLoopDeclaration (declaration : Node) : Bool :=
  declaration.role == some .left &&
    (t.parent? declaration.id).any fun p ↦ p.kind == .forOfStatement || p.kind == .forInStatement

def matchingDeclarator (declarator : Node) : List Rule :=
  match t.parent? declarator.id with
  | none => []
  | some declaration => match declaration.kind with
    | .variableDeclaration kind =>
      if (t.childIn? declarator.id .init).isSome then
        if kind.isMutable then [.nullishLet, .unsafeInitializer, .implicitAnyArray]
        else [.unsafeInitializer, .implicitAnyArray]
      else if kind.isMutable && !isLoopDeclaration t declaration then [.uninitializedLet]
      else []
    | _ => []

def ifChild (n : Node) (r : Role) (rule : Rule) : List Rule :=
  if (t.childIn? n.id r).isSome then [rule] else []

/-- The rules that apply to a node, in the order in which they are applied. -/
def matching (n : Node) : List Rule :=
  match n.kind with
  | .typeReference => [.typeReference]
  | .variableDeclarator => matchingDeclarator t n
  | .identifier => if (t.destructuringDeclarator? n).isSome then [.patternBinding] else []
  | .forOfStatement => [.loopBinding]
  | .returnStatement => ifChild t n .argument .returnValue
  | .arrowFunctionExpression =>
    if (t.childIn? n.id .body).any fun body ↦ body.kind != .blockStatement then [.returnValue]
    else []
  | .callExpression | .newExpression => [.callArguments]
  | .assignmentExpression _ => [.assignedValue]
  | .updateExpression _ _ => [.updatedValue]
  | .ifStatement | .whileStatement | .doWhileStatement | .forStatement
  | .conditionalExpression => ifChild t n .test .booleanTest
  | .switchStatement => [.switchDiscriminant]
  | .switchCase => ifChild t n .test .switchCaseTest
  | _ => []

end AnyFlow.Rule
