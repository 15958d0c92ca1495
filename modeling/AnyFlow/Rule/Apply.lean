import AnyFlow.Options
import AnyFlow.Rule.Matching
import AnyFlow.Rule.Step

namespace AnyFlow

structure Context where
  tree : Tree
  oracle : Oracle
  options : Options

namespace Context

variable (cx : Context)

def required (n : Node) (r : Role) : Except Failure Node :=
  match cx.tree.childIn? n.id r with
  | some c => .ok c
  | none => .error (.missingChild n.kind n.id r)

def isAnnotated (binding : Node) : Bool := (cx.tree.childIn? binding.id .typeAscription).isSome

def variableKind (declarator : Node) : Except Failure VariableKind :=
  match (cx.tree.parent? declarator.id).map Node.kind with
  | some (.variableDeclaration kind) => .ok kind
  | other => .error (.strayDeclarator declarator.id other)

/-- Asking for the type of a node leaves a step only if there is none. -/
def ask (n : Node) : List Step :=
  match cx.oracle n with
  | .ok _ => []
  | .error e => [.unresolved e]

def reportLeak (anchor value : Node) (m : Message) (data : List (String × String)) : List Step :=
  cx.ask value ++
    if (cx.oracle.exposure value).isLeaking then [.found (.ofNode anchor m data)] else []

/-- A call or construction of the global `Array` without type arguments. -/
def isArrayConstructor (call : Node) : Bool :=
  (cx.tree.childIn? call.id .callee).any (·.isIdentifier "Array") &&
    (cx.tree.childIn? call.id .typeArguments).isNone

/-- The resolved type of the result fixes the elements. -/
def isTypedElsewhere (call : Node) : Bool :=
  (cx.oracle.type? call).any fun t ↦ t.exposure != .arrayOfAny

def isLengthOnly : List Node → Bool
  | [] => true
  | [arg] => arg.kind != .spreadElement && (cx.oracle.type? arg).any (·.isNumericLike)
  | _ => false

/-- Whether a call builds an array whose elements are implicitly `any`. Several arguments become
the elements, and so does a single one that is not numeric. -/
def buildsAnyArray (call : Node) : Bool :=
  cx.isArrayConstructor call && !cx.isTypedElsewhere call &&
    cx.isLengthOnly (cx.tree.childrenIn call.id .arguments)

def askedByArray (call : Node) : List Node :=
  if cx.isArrayConstructor call then
    call :: if cx.isTypedElsewhere call then []
      else match cx.tree.childrenIn call.id .arguments with
        | [arg] => if arg.kind = .spreadElement then [] else [arg]
        | _ => []
  else []

end Context

namespace Rule

variable (cx : Context) (n : Node)

def applyTypeReference : Except Failure (List Step) :=
  if cx.oracle.exposure n = .any then
    match n.text? with
    | some name => .ok [.found (.ofNode n .typeReference [("typeName", name)])]
    | none => .error (.namelessReference n.id)
  else .ok (cx.ask n)

def applyUninitializedLet : Except Failure (List Step) := do
  let kind ← cx.variableKind n
  let id ← cx.required n .id
  if cx.isAnnotated id then return []
  return [.found (.ofNode n .letWithoutInitial [("kind", Keyword.word kind)])]

def applyNullishLet : Except Failure (List Step) := do
  let kind ← cx.variableKind n
  let id ← cx.required n .id
  let init ← cx.required n .init
  if !cx.isAnnotated id && (init.isNullLiteral || init.isIdentifier "undefined") then
    return [.found (.ofNode n .letNullish [("kind", Keyword.word kind)])]
  return []

/-- An assertion is the author's own narrowing. -/
def applyUnsafeInitializer : Except Failure (List Step) := do
  let id ← cx.required n .id
  let init ← cx.required n .init
  if init.kind.isTypeAssertion then return []
  if cx.oracle.exposure init ≠ .any then return cx.ask init
  if !cx.isAnnotated id then return [.found (.ofNode n .initialUnannotated [])]
  if cx.options.allowAnnotationFromAny then return []
  return [.found (.ofNode n .initialAnnotated [])]

def applyImplicitAnyArray : Except Failure (List Step) := do
  let id ← cx.required n .id
  let init ← cx.required n .init
  if cx.isAnnotated id then return []
  let finding := Step.found (.ofNode n .initialEmptyArray [])
  match init.kind with
  | .arrayExpression =>
    return if (cx.tree.childIn? init.id .elements).isNone then [finding] else []
  | .callExpression | .newExpression =>
    return (cx.askedByArray init).flatMap cx.ask ++
      if cx.buildsAnyArray init then [finding] else []
  | _ => return []

def applyPatternBinding : Except Failure (List Step) :=
  if cx.oracle.exposure n = .any then
    match n.text? with
    | some name => .ok [.found (.ofNode n .patternVariable [("name", name)])]
    | none => .error (.namelessBinding n.id)
  else .ok (cx.ask n)

/-- The elements of the iterated value count, so an array may also hold arrays of `any`. -/
def applyLoopBinding : Except Failure (List Step) := do
  let left ← cx.required n .left
  let right ← cx.required n .right
  match cx.oracle.type? right with
  | none => return cx.ask right
  | some t =>
    if t.isAny || t.element?.any (·.exposure.isLeaking) then
      return [.found (.ofNode left .loopVariable [])]
    return []

def applyReturnValue : Except Failure (List Step) :=
  match n.kind with
  | .returnStatement => do
    let value ← cx.required n .argument
    return cx.reportLeak n value .returned []
  | .arrowFunctionExpression => do
    let body ← cx.required n .body
    return cx.reportLeak body body .returned []
  | kind => .error (.returnsNothing n.id kind)

/-- Arguments are counted from zero. -/
def applyCallArguments : List Step :=
  (cx.tree.childrenIn n.id .arguments).zipIdx.flatMap fun (arg, i) ↦
    cx.reportLeak n arg .passedArgument [("index", i.repr)]

def applyAssignedValue : Except Failure (List Step) :=
  match n.kind with
  | .assignmentExpression operator => do
    let right ← cx.required n .right
    return cx.reportLeak n right .assigned [("operator", Keyword.word operator)]
  | _ => .error (.noAssignment n.id)

def applyUpdatedValue : Except Failure (List Step) :=
  match n.kind with
  | .updateExpression operator _ => do
    let operand ← cx.required n .argument
    return cx.reportLeak n operand .updated [("operator", Keyword.word operator)]
  | _ => .error (.noUpdate n.id)

def applyToChild (r : Role) (m : Message) : Except Failure (List Step) := do
  let c ← cx.required n r
  return cx.reportLeak c c m []

def apply (rule : Rule) : Except Failure (List Step) :=
  match rule with
  | .typeReference => applyTypeReference cx n
  | .uninitializedLet => applyUninitializedLet cx n
  | .nullishLet => applyNullishLet cx n
  | .unsafeInitializer => applyUnsafeInitializer cx n
  | .implicitAnyArray => applyImplicitAnyArray cx n
  | .patternBinding => applyPatternBinding cx n
  | .loopBinding => applyLoopBinding cx n
  | .returnValue => applyReturnValue cx n
  | .callArguments => .ok (applyCallArguments cx n)
  | .assignedValue => applyAssignedValue cx n
  | .updatedValue => applyUpdatedValue cx n
  | .booleanTest => applyToChild cx n .test .booleanTest
  | .switchDiscriminant => applyToChild cx n .discriminant .switchDiscriminant
  | .switchCaseTest => applyToChild cx n .test .switchCaseTest

end Rule

end AnyFlow
