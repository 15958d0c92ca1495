import AnyFlow.Analysis
import AnyFlow.Finding.Emitter

namespace AnyFlow

structure Pass where
  emitter : Emitter
  events : List Event
deriving DecidableEq

namespace Pass

def note (s : Pass) (e : Event) : Pass := { s with events := s.events ++ [e] }

def report (s : Pass) (f : Finding) : Pass :=
  match s.emitter.emit f with
  | (true, emitter) => { s with emitter }
  | (false, emitter) => { s with emitter }.note (.duplicateDropped f.anchor f.message)

end Pass

/-- What an action has done before it fails stays done. -/
abbrev Action := ExceptT Failure (StateM Pass)

/-- The outcome of an action, and the state in which it leaves the pass. -/
def Action.runOn {α : Type} (a : Action α) (s : Pass) : Except Failure α × Pass := a.run.run s

namespace Context

variable (cx : Context)

def resolve (n : Node) : Action (Option Ty) :=
  match cx.oracle n with
  | .ok ty => return some ty
  | .error e => do
    modify fun s ↦ s.note (.typeUnavailable e)
    return none

def classify (n : Node) : Action Exposure := do
  match ← cx.resolve n with
  | some ty => return ty.exposure
  | none => return .safe

def emit (anchor : Node) (m : Message) (data : List (String × String)) : Action Unit :=
  modify fun s ↦ s.report (.ofNode anchor m data)

def judge (anchor value : Node) (m : Message) (data : List (String × String)) : Action Unit := do
  let exposure ← cx.classify value
  if exposure.isLeaking then emit anchor m data else return

def judgeLength : List Node → Action Bool
  | [] => return true
  | [arg] =>
    if arg.kind = .spreadElement then return false
    else do
      let ty ← cx.resolve arg
      return ty.any (·.isNumericLike)
  | _ => return false

def judgeArray (call : Node) : Action Bool :=
  if cx.isArrayConstructor call then do
    let ty ← cx.resolve call
    if ty.any fun ty ↦ ty.exposure != .arrayOfAny then return false
    else cx.judgeLength (cx.tree.childrenIn call.id .arguments)
  else return false

def judgeStart (init : Node) : Action Bool :=
  match init.kind with
  | .arrayExpression => return (cx.tree.childIn? init.id .elements).isNone
  | .callExpression | .newExpression => cx.judgeArray init
  | _ => return false

end Context

namespace Rule

variable (cx : Context) (n : Node)

open Context (emit)

def performNamed (m : Message) (key : String) (failure : Failure) : Action Unit := do
  let exposure ← cx.classify n
  if exposure = .any then
    match n.text? with
    | some name => emit n m [(key, name)]
    | none => throw failure
  else return

def performUninitializedLet : Action Unit := do
  let kind ← cx.variableKind n
  let id ← cx.required n .id
  if cx.isAnnotated id then return
  else emit n .letWithoutInitial [("kind", Keyword.word kind)]

def performNullishLet : Action Unit := do
  let kind ← cx.variableKind n
  let id ← cx.required n .id
  let init ← cx.required n .init
  if cx.isAnnotated id then return
  else if init.isNullLiteral || init.isIdentifier "undefined" then
    emit n .letNullish [("kind", Keyword.word kind)]
  else return

def performUnsafeInitializer : Action Unit := do
  let id ← cx.required n .id
  let init ← cx.required n .init
  if init.kind.isTypeAssertion then return
  else do
    let exposure ← cx.classify init
    if exposure ≠ .any then return
    else if !cx.isAnnotated id then emit n .initialUnannotated []
    else if cx.options.allowAnnotationFromAny then return
    else emit n .initialAnnotated []

def performImplicitAnyArray : Action Unit := do
  let id ← cx.required n .id
  let init ← cx.required n .init
  if cx.isAnnotated id then return
  else do
    let implicit ← cx.judgeStart init
    if implicit then emit n .initialEmptyArray [] else return

def performLoopBinding : Action Unit := do
  let left ← cx.required n .left
  let right ← cx.required n .right
  match ← cx.resolve right with
  | none => return
  | some ty =>
    if ty.isAny || ty.element?.any (·.exposure.isLeaking) then emit left .loopVariable []
    else return

def performReturnValue : Action Unit :=
  match n.kind with
  | .returnStatement => do
    let value ← cx.required n .argument
    cx.judge n value .returned []
  | .arrowFunctionExpression => do
    let body ← cx.required n .body
    cx.judge body body .returned []
  | kind => throw (.returnsNothing n.id kind)

def performCallArguments : Action Unit :=
  (cx.tree.childrenIn n.id .arguments).zipIdx.forM fun (arg, i) ↦
    cx.judge n arg .passedArgument [("index", i.repr)]

def performAssignedValue : Action Unit :=
  match n.kind with
  | .assignmentExpression operator => do
    let right ← cx.required n .right
    cx.judge n right .assigned [("operator", Keyword.word operator)]
  | _ => throw (.noAssignment n.id)

def performUpdatedValue : Action Unit :=
  match n.kind with
  | .updateExpression operator _ => do
    let operand ← cx.required n .argument
    cx.judge n operand .updated [("operator", Keyword.word operator)]
  | _ => throw (.noUpdate n.id)

def performOnChild (r : Role) (m : Message) : Action Unit := do
  let c ← cx.required n r
  cx.judge c c m []

def perform : Rule → Action Unit
  | .typeReference => performNamed cx n .typeReference "typeName" (.namelessReference n.id)
  | .uninitializedLet => performUninitializedLet cx n
  | .nullishLet => performNullishLet cx n
  | .unsafeInitializer => performUnsafeInitializer cx n
  | .implicitAnyArray => performImplicitAnyArray cx n
  | .patternBinding => performNamed cx n .patternVariable "name" (.namelessBinding n.id)
  | .loopBinding => performLoopBinding cx n
  | .returnValue => performReturnValue cx n
  | .callArguments => performCallArguments cx n
  | .assignedValue => performAssignedValue cx n
  | .updatedValue => performUpdatedValue cx n
  | .booleanTest => performOnChild cx n .test .booleanTest
  | .switchDiscriminant => performOnChild cx n .discriminant .switchDiscriminant
  | .switchCaseTest => performOnChild cx n .test .switchCaseTest

end Rule

namespace Context

variable (cx : Context)

/-- A rule that fails is noted, and the pass goes on. -/
def attempt (n : Node) (s : Pass) (rule : Rule) : Pass :=
  match (rule.perform cx n).runOn s with
  | (.ok (), s) => s
  | (.error failure, s) => s.note (.ruleSkipped cx.tree.file rule n.id failure)

def attemptAll (n : Node) (rules : List Rule) (s : Pass) : Pass := rules.foldl (cx.attempt n) s

def visit (s : Pass) (n : Node) : Pass := cx.attemptAll n (Rule.matching cx.tree n) s

/-- The pass over the whole tree. The count of its emitter is what it returns. -/
def pass (sink : List Finding) : Pass :=
  let s := cx.tree.preorder.foldl cx.visit ⟨.new sink, [.started cx.tree.file cx.tree.size]⟩
  s.note (.completed cx.tree.file s.emitter.emitted)

end Context

end AnyFlow
