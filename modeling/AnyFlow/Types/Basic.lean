import AnyFlow.Decimal.Binary64

namespace AnyFlow

inductive Ty
  | any
  | unknown
  | never
  | void
  | null
  | undefined
  | boolean
  | string
  | number
  | bigInt
  | numberLiteral (value : Binary64)
  | stringLiteral (value : String)
  | numericEnum (name : String)
  | array (element : Ty) (readonly : Bool)
  | union (members : List Ty)
  /-- Any other named or structural type. -/
  | named (name : String)
deriving Inhabited

namespace Ty

def arrayOf (element : Ty) : Ty := .array element false

/-- A union that has other members too is not `any`. -/
def isAny : Ty → Bool
  | .any => true
  | _ => false

def element? : Ty → Option Ty
  | .array element _ => some element
  | _ => none

mutual

/-- Number, numeric literal, numeric enumeration, or a union of nothing else, which is not
empty. -/
def isNumericLike : Ty → Bool
  | .number | .numberLiteral _ | .numericEnum _ => true
  | .union members => !members.isEmpty && areNumericLike members
  | _ => false
termination_by structural t => t

def areNumericLike : List Ty → Bool
  | [] => true
  | t :: ts => isNumericLike t && areNumericLike ts
termination_by structural ts => ts

end

end Ty

/-- How far `any` reaches in a type: the rules distinguish no more. -/
inductive Exposure
  | any
  | arrayOfAny
  | safe
deriving DecidableEq, Inhabited

namespace Exposure

def isLeaking : Exposure → Bool
  | .any | .arrayOfAny => true
  | .safe => false

end Exposure

def Ty.exposure (t : Ty) : Exposure :=
  if t.isAny then .any
  else match t.element? with
    | some e => if e.isAny then .arrayOfAny else .safe
    | none => .safe

end AnyFlow
