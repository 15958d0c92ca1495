import AnyFlow.Json.Record
import AnyFlow.Text.Quotation

namespace AnyFlow

structure Options where
  /-- Accepts `any` as the initial value of a declaration that is annotated. -/
  allowAnnotationFromAny : Bool
deriving DecidableEq

namespace Options

def defaults : Options := ⟨false⟩

instance : Inhabited Options := ⟨defaults⟩

open Json

inductive Error
  | tooMany (count : Nat)
  | unknownField (name : String)
  | notBoolean (found : Value)
  | notRecord (found : Value)
  | tooLong (count : Nat)

def flagName : String := "allowAnnotationFromAny"

namespace Error

def describe : Value → String
  | .null => "null"
  | .bool b => "boolean `" ++ (if b then "true" else "false") ++ "`"
  | .number (.int n) => "integer `" ++ String.ofList (Numeral.ofInt n).write ++ "`"
  | .number (.float x) => "floating point `" ++ String.ofList (Numeral.ofFloat x).write ++ "`"
  | .text s => "string " ++ Text.quote s
  | .array _ => "sequence"
  | .object _ => "map"

def message : Error → String
  | .tooMany count => "expected at most one options object, got " ++ count.repr
  | _ => "invalid no-unsafe-any options"

def causes : Error → List String
  | .tooMany _ => []
  | .unknownField name => ["unknown field `" ++ name ++ "`, expected `" ++ flagName ++ "`"]
  | .notBoolean v => ["invalid type: " ++ describe v ++ ", expected a boolean"]
  | .notRecord v => ["invalid type: " ++ describe v ++ ", expected struct RuleConfiguration"]
  | .tooLong count =>
    ["invalid length " ++ count.repr ++ ", expected fewer elements in array"]

end Error

/-- Reads the members in their order; the first faulty one is told. -/
def ofMembers (o : Options) : List (String × Value) → Except Error Options
  | [] => .ok o
  | (k, v) :: rest =>
    if k = flagName then match v with
      | .bool b => ofMembers ⟨b⟩ rest
      | v => .error (.notBoolean v)
    else .error (.unknownField k)

/-- An options record, as an object or as an array with the flag. -/
def ofRecord : Value → Except Error Options
  | .object members => ofMembers defaults members
  | .array [] => .ok defaults
  | .array (.bool b :: rest) =>
    if rest.isEmpty then .ok ⟨b⟩ else .error (.tooLong (rest.length + 1))
  | .array (v :: _) => .error (.notBoolean v)
  | v => .error (.notRecord v)

def ofValue : Value → Except Error Options
  | .null | .array [] | .array [.null] => .ok defaults
  | .array [v] => ofRecord v
  | .array items => .error (.tooMany items.length)
  | v => ofRecord v

def toDocument (o : Options) : Document := .record [(flagName, .bool o.allowAnnotationFromAny)]

def decode : Decoder Options := fun depth d ↦ do
  let r ← Record.ofClosedDocument? [flagName] depth d
  return ⟨← r.withDefault flagName false Decoder.bool⟩

end Options

end AnyFlow
