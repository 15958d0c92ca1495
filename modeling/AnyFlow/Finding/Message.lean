import AnyFlow.Keyword

namespace AnyFlow

inductive Message
  | typeReference
  | letWithoutInitial
  | letNullish
  | initialUnannotated
  | initialAnnotated
  | initialEmptyArray
  | patternVariable
  | loopVariable
  | returned
  | passedArgument
  | assigned
  | updated
  | booleanTest
  | switchDiscriminant
  | switchCaseTest
deriving DecidableEq, Inhabited

structure Template where
  before : String
  hole : Option String
  after : String
deriving DecidableEq

namespace Template

def mark (key : String) : String := "\x7b\x7b" ++ key ++ "\x7d\x7d"

def text (t : Template) : String :=
  t.before ++ (match t.hole with
    | some key => mark key
    | none => "") ++ t.after

end Template

namespace Message

instance : Keyword Message where
  all := [.typeReference, .letWithoutInitial, .letNullish, .initialUnannotated,
    .initialAnnotated, .initialEmptyArray, .patternVariable, .loopVariable, .returned,
    .passedArgument, .assigned, .updated, .booleanTest, .switchDiscriminant, .switchCaseTest]
  word
    | .typeReference => "typeReferenceResolvesToAny"
    | .letWithoutInitial => "letVariableWithNoInitialAndNoAnnotation"
    | .letNullish => "letVariableInitialisedToNullishAndNoAnnotation"
    | .initialUnannotated => "variableDeclarationInitialisedToAnyWithoutAnnotation"
    | .initialAnnotated => "variableDeclarationInitialisedToAnyWithAnnotation"
    | .initialEmptyArray => "variableDeclarationInitialisedToAnyArrayWithoutAnnotation"
    | .patternVariable => "patternVariableDeclarationInitialisedToAny"
    | .loopVariable => "loopVariableInitialisedToAny"
    | .returned => "returnAny"
    | .passedArgument => "passedArgumentIsAny"
    | .assigned => "assignmentValueIsAny"
    | .updated => "updateExpressionIsAny"
    | .booleanTest => "booleanTestIsAny"
    | .switchDiscriminant => "switchDiscriminantIsAny"
    | .switchCaseTest => "switchCaseTestIsAny"
  find_word a := by cases a <;> rfl

def template : Message → Template
  | .typeReference => ⟨"Referenced type ", some "typeName", " resolves to `any`."⟩
  | .letWithoutInitial =>
    ⟨"Variable declared with ", some "kind",
      " with no initial value is implicitly typed as `any`."⟩
  | .letNullish =>
    ⟨"Variable declared with ", some "kind",
      " and initialised to `null` or `undefined` is implicitly typed as `any`. " ++
        "Add an explicit type annotation."⟩
  | .initialUnannotated =>
    ⟨"Variable declaration is initialised to `any` without an assertion or a type annotation.",
      none, ""⟩
  | .initialAnnotated =>
    ⟨"Variable declaration is initialised to `any` with an explicit type annotation, " ++
      "which is unsafe. Prefer explicit type narrowing via type guards.", none, ""⟩
  | .initialEmptyArray =>
    ⟨"Variable declaration is initialised to an empty array, which is implicitly typed as " ++
      "`any[]`. Add an explicit type annotation.", none, ""⟩
  | .patternVariable =>
    ⟨"Destructured variable ", some "name",
      " is initialised to `any`. Add an explicit type annotation or narrow the value first."⟩
  | .loopVariable =>
    ⟨"Loop variable is initialised to `any`. Narrow the iterated value before the loop.",
      none, ""⟩
  | .returned => ⟨"Returning `any` from a function is unsafe.", none, ""⟩
  | .passedArgument =>
    ⟨"Passing an `any` typed value as argument ", some "index", " is unsafe."⟩
  | .assigned => ⟨"Assigning an `any` typed value with ", some "operator", " is unsafe."⟩
  | .updated => ⟨"Applying ", some "operator", " to an `any` typed value is unsafe."⟩
  | .booleanTest => ⟨"Using an `any` typed value as a condition is unsafe.", none, ""⟩
  | .switchDiscriminant => ⟨"Switching over an `any` typed value is unsafe.", none, ""⟩
  | .switchCaseTest => ⟨"Using an `any` typed value as a case test is unsafe.", none, ""⟩

def placeholders : Message → List String
  | .typeReference => ["typeName"]
  | .letWithoutInitial | .letNullish => ["kind"]
  | .patternVariable => ["name"]
  | .passedArgument => ["index"]
  | .assigned | .updated => ["operator"]
  | .initialUnannotated | .initialAnnotated | .initialEmptyArray | .loopVariable | .returned
  | .booleanTest | .switchDiscriminant | .switchCaseTest => []

theorem placeholders_eq (m : Message) : m.placeholders = m.template.hole.toList := by
  cases m <;> rfl

def rank (m : Message) : Nat := List.idxOf m Keyword.all

def sort (ms : List Message) : List Message := ms.mergeSort fun m m' ↦ m.rank ≤ m'.rank

end Message

end AnyFlow
