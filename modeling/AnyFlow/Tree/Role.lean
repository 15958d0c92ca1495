import AnyFlow.Keyword

namespace AnyFlow

inductive Role
  | body
  | declarations
  | id
  | init
  | typeAscription
  | returnType
  | typeArguments
  | params
  | expression
  | argument
  | arguments
  | callee
  | object
  | property
  | properties
  | elements
  | key
  | value
  | left
  | right
  | test
  | update
  | consequent
  | alternate
  | discriminant
  | cases
deriving DecidableEq, Inhabited

namespace Role

instance : Keyword Role where
  all := [.body, .declarations, .id, .init, .typeAscription, .returnType, .typeArguments, .params,
    .expression, .argument, .arguments, .callee, .object, .property, .properties, .elements, .key,
    .value, .left, .right, .test, .update, .consequent, .alternate, .discriminant, .cases]
  word
    | .body => "body"
    | .declarations => "declarations"
    | .id => "id"
    | .init => "init"
    | .typeAscription => "typeAnnotation"
    | .returnType => "returnType"
    | .typeArguments => "typeArguments"
    | .params => "params"
    | .expression => "expression"
    | .argument => "argument"
    | .arguments => "arguments"
    | .callee => "callee"
    | .object => "object"
    | .property => "property"
    | .properties => "properties"
    | .elements => "elements"
    | .key => "key"
    | .value => "value"
    | .left => "left"
    | .right => "right"
    | .test => "test"
    | .update => "update"
    | .consequent => "consequent"
    | .alternate => "alternate"
    | .discriminant => "discriminant"
    | .cases => "cases"
  find_word a := by cases a <;> rfl

def label (r : Role) : String := (Keyword.word r).capitalize

end Role

end AnyFlow
