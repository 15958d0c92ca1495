import AnyFlow.Json.Record
import AnyFlow.Types.Basic

namespace AnyFlow

open Json

instance : Keyword Exposure where
  all := [.any, .arrayOfAny, .safe]
  word
    | .any => "Unsafe"
    | .arrayOfAny => "UnsafeArray"
    | .safe => "Safe"
  find_word a := by cases a <;> rfl

namespace Ty

def tag : Ty → String
  | .any => "any"
  | .unknown => "unknown"
  | .never => "never"
  | .void => "void"
  | .null => "null"
  | .undefined => "undefined"
  | .boolean => "boolean"
  | .string => "string"
  | .number => "number"
  | .bigInt => "bigInt"
  | .numberLiteral _ => "numberLiteral"
  | .stringLiteral _ => "stringLiteral"
  | .numericEnum _ => "numericEnum"
  | .array _ _ => "array"
  | .union _ => "union"
  | .named _ => "named"

def bare : List Ty :=
  [.any, .unknown, .never, .void, .null, .undefined, .boolean, .string, .number, .bigInt]

/-- All tags; the position of a tag is its number. -/
def tags : List String :=
  bare.map tag ++ ["numberLiteral", "stringLiteral", "numericEnum", "array", "union", "named"]

mutual

def toDocument : Ty → Document
  | .numberLiteral x =>
    .record [("type", .ofText "numberLiteral"), ("value", .numeral (.ofFloat x))]
  | .stringLiteral s => .record [("type", .ofText "stringLiteral"), ("value", .ofText s)]
  | .numericEnum s => .record [("type", .ofText "numericEnum"), ("name", .ofText s)]
  | .array e readonly =>
    .record [("type", .ofText "array"), ("element", toDocument e), ("readonly", .bool readonly)]
  | .union ts => .record [("type", .ofText "union"), ("members", .array (toDocuments ts))]
  | .named s => .record [("type", .ofText "named"), ("name", .ofText s)]
  | t => .record [("type", .ofText t.tag)]
termination_by structural t => t

def toDocuments : List Ty → List Document
  | [] => []
  | t :: ts => toDocument t :: toDocuments ts
termination_by structural ts => ts

end

def decodeFloat : Decoder Binary64
  | _, .numeral n => (Number.ofNumeral? n).bind Number.toFloat?
  | _, _ => none

/-- A number in place of a tag is read only inside another type. -/
def decodeTag (inner : Bool) : Document → Option String
  | .text q => q.text?
  | .numeral n => if inner then n.nat?.bind fun i ↦ tags[i]? else none
  | _ => none

def ofContent? (read : Decoder Ty) (tag : String) : Decoder Ty := fun depth d ↦
  if tag = "numberLiteral" then do
    let r ← Record.ofDocument? ["value"] depth d
    return .numberLiteral (← r.required "value" decodeFloat)
  else if tag = "stringLiteral" then do
    let r ← Record.ofDocument? ["value"] depth d
    return .stringLiteral (← r.required "value" Decoder.text)
  else if tag = "numericEnum" then do
    let r ← Record.ofDocument? ["name"] depth d
    return .numericEnum (← r.required "name" Decoder.text)
  else if tag = "array" then do
    let r ← Record.ofDocument? ["element", "readonly"] depth d
    let e ← r.required "element" read
    return .array e (← r.withDefault "readonly" false Decoder.bool)
  else if tag = "union" then do
    let r ← Record.ofDocument? ["members"] depth d
    return .union (← r.required "members" (Decoder.list read))
  else if tag = "named" then do
    let r ← Record.ofDocument? ["name"] depth d
    return .named (← r.required "name" Decoder.text)
  else do
    let _ ← Record.ofDocument? [] depth d
    bare.find? (·.tag == tag)

def ofTagged? (inner : Bool) : (depth : Nat) → Document → Option Ty
  | 0, _ => none
  | depth + 1, d => do
    let t ← Tagged.ofDocument? d
    ofContent? (fun _ d ↦ ofTagged? true depth d) (← decodeTag inner t.tag) (depth + 1) t.content

/-- The whole of a type must have a value, unknown members too. -/
def decode : Decoder Ty := fun depth d ↦
  if d.fits depth then ofTagged? false depth d else none

end Ty

end AnyFlow
