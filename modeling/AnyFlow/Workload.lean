import AnyFlow.Tree.Builder
import AnyFlow.Types.Table

namespace AnyFlow.Workload

structure Draft where
  builder : Builder
  types : TypeTable

abbrev Writer := StateT Draft (Except UnknownParent)

namespace Writer

def position (line column : Nat) : Writer Unit := fun ⟨builder, types⟩ ↦
  .ok ((), ⟨builder.atPosition line column, types⟩)

def root (kind : Kind) : Writer Nat := fun ⟨builder, types⟩ ↦
  let id := builder.nextId
  .ok (id, ⟨builder.root kind, types⟩)

def child (parent : Nat) (role : Role) (kind : Kind) : Writer Nat := fun ⟨builder, types⟩ ↦
  let id := builder.nextId
  (builder.child parent role kind).map fun builder ↦ (id, ⟨builder, types⟩)

def value (id : Nat) (value : Json.Value) : Writer Unit := fun ⟨builder, types⟩ ↦
  .ok ((), ⟨builder.setValue id value, types⟩)

def type (id : Nat) (type : Ty) : Writer Unit := fun ⟨builder, types⟩ ↦
  .ok ((), ⟨builder, types.insert id type⟩)

def identifier (parent : Nat) (role : Role) (name : String) : Writer Nat := do
  let id ← child parent role .identifier
  value id (.text name)
  return id

end Writer

open Writer

/-- A statement in which `v` takes the value of `src`. -/
def transfer (body : Nat) (outer : Kind) (role : Role) (inner : Kind) (target source : Role)
    (ty : Ty) : Writer Unit := do
  let statement ← child body .body outer
  let transfer ← child statement role inner
  let _ ← identifier transfer target "v"
  let value ← identifier transfer source "src"
  type value ty

def declaration (body : Nat) (ty : Ty) : Writer Unit :=
  transfer body (.variableDeclaration .letBound) .declarations .variableDeclarator .id .init ty

def assignment (body : Nat) (ty : Ty) : Writer Unit :=
  transfer body .expressionStatement .expression (.assignmentExpression .set) .left .right ty

def argument (call : Nat) (ty : Ty) : Writer Unit := do
  let argument ← identifier call .arguments "v"
  type argument ty

def call (body : Nat) (ty : Ty) : Writer Unit := do
  let statement ← child body .body .expressionStatement
  let call ← child statement .expression .callExpression
  let _ ← identifier call .callee "sink"
  (List.range 3).forM fun _ ↦ argument call ty

def returned (body : Nat) (ty : Ty) : Writer Unit := do
  let statement ← child body .body .returnStatement
  let argument ← identifier statement .argument "v"
  type argument ty

def function (program : Nat) (name : String) (ty : Ty) : Writer Unit := do
  let function ← child program .body .functionDeclaration
  let _ ← identifier function .id name
  let body ← child function .body .blockStatement
  declaration body ty
  assignment body ty
  call body ty
  returned body ty

def valueType (i : Nat) : Ty := if i % 3 = 0 then .any else .number

/-- The function with a number, which tells its line, its name and the type of its value. -/
def functionAt (program i : Nat) : Writer Unit := do
  position (i * 6 + 1) 1
  function program ("f" ++ i.repr) (valueType i)

def file (functions : Nat) : Writer Unit := do
  let program ← root .program
  (List.range functions).forM (functionAt program)

def generate (functions : Nat) : Except UnknownParent (Tree × TypeTable) := do
  let ((), draft) ← (file functions).run ⟨.new "bench.ts", .empty⟩
  return (draft.builder.tree, draft.types)

end AnyFlow.Workload
