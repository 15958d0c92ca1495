import AnyFlow.Keyword

namespace AnyFlow

inductive Rule
  | typeReference
  | uninitializedLet
  | nullishLet
  | unsafeInitializer
  /-- A declarator whose initial value is an empty array without a type. -/
  | implicitAnyArray
  /-- An identifier that a destructuring declaration binds. -/
  | patternBinding
  | loopBinding
  /-- The argument of a return, or the expression body of an arrow function. -/
  | returnValue
  | callArguments
  | assignedValue
  | updatedValue
  | booleanTest
  | switchDiscriminant
  | switchCaseTest
deriving DecidableEq, Inhabited

instance : Keyword Rule where
  all := [.typeReference, .uninitializedLet, .nullishLet, .unsafeInitializer, .implicitAnyArray,
    .patternBinding, .loopBinding, .returnValue, .callArguments, .assignedValue, .updatedValue,
    .booleanTest, .switchDiscriminant, .switchCaseTest]
  word
    | .typeReference => "type-reference"
    | .uninitializedLet => "uninitialized-let"
    | .nullishLet => "nullish-let"
    | .unsafeInitializer => "unsafe-initializer"
    | .implicitAnyArray => "implicit-any-array"
    | .patternBinding => "pattern-binding"
    | .loopBinding => "loop-binding"
    | .returnValue => "return-value"
    | .callArguments => "call-arguments"
    | .assignedValue => "assigned-value"
    | .updatedValue => "updated-value"
    | .booleanTest => "boolean-test"
    | .switchDiscriminant => "switch-discriminant"
    | .switchCaseTest => "switch-case-test"
  find_word a := by cases a <;> rfl

end AnyFlow
