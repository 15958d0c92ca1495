import AnyFlow.Keyword

namespace AnyFlow

inductive VariableKind
  | constBound
  | letBound
  | varBound
deriving DecidableEq, Inhabited

namespace VariableKind

instance : Keyword VariableKind where
  all := [.constBound, .letBound, .varBound]
  word
    | .constBound => "const"
    | .letBound => "let"
    | .varBound => "var"
  find_word a := by cases a <;> rfl

def label : VariableKind → String
  | .constBound => "Const"
  | .letBound => "Let"
  | .varBound => "Var"

/-- Such variables may be declared without a value. -/
def isMutable : VariableKind → Bool
  | .constBound => false
  | .letBound | .varBound => true

end VariableKind

inductive AssignmentOperator
  | set
  | add
  | sub
  | mul
  | div
  | rem
  | pow
  | shl
  | shr
  | ushr
  | bitOr
  | bitXor
  | bitAnd
  | or
  | and
  | nullish
deriving DecidableEq, Inhabited

namespace AssignmentOperator

instance : Keyword AssignmentOperator where
  all := [.set, .add, .sub, .mul, .div, .rem, .pow, .shl, .shr, .ushr, .bitOr, .bitXor, .bitAnd,
    .or, .and, .nullish]
  word
    | .set => "="
    | .add => "+="
    | .sub => "-="
    | .mul => "*="
    | .div => "/="
    | .rem => "%="
    | .pow => "**="
    | .shl => "<<="
    | .shr => ">>="
    | .ushr => ">>>="
    | .bitOr => "|="
    | .bitXor => "^="
    | .bitAnd => "&="
    | .or => "||="
    | .and => "&&="
    | .nullish => "??="
  find_word a := by cases a <;> rfl

def label : AssignmentOperator → String
  | .set => "Assign"
  | .add => "AddAssign"
  | .sub => "SubAssign"
  | .mul => "MulAssign"
  | .div => "DivAssign"
  | .rem => "RemAssign"
  | .pow => "PowAssign"
  | .shl => "ShlAssign"
  | .shr => "ShrAssign"
  | .ushr => "UShrAssign"
  | .bitOr => "BitOrAssign"
  | .bitXor => "BitXorAssign"
  | .bitAnd => "BitAndAssign"
  | .or => "OrAssign"
  | .and => "AndAssign"
  | .nullish => "NullishAssign"

end AssignmentOperator

inductive UpdateOperator
  | increment
  | decrement
deriving DecidableEq, Inhabited

namespace UpdateOperator

instance : Keyword UpdateOperator where
  all := [.increment, .decrement]
  word
    | .increment => "++"
    | .decrement => "--"
  find_word a := by cases a <;> rfl

def label : UpdateOperator → String
  | .increment => "Increment"
  | .decrement => "Decrement"

end UpdateOperator

end AnyFlow
