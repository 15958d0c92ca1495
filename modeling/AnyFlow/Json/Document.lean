import AnyFlow.Json.Token

namespace AnyFlow.Json

/-- Members keep their order and may repeat a key. How a token was spelled is not kept: neither the
letter, the plus sign and the leading zeros of an exponent, nor that a solidus was escaped, nor the
case of the hexadecimal digits of an escape. -/
inductive Document
  | null
  | bool (b : Bool)
  | numeral (n : Numeral)
  | text (q : Quoted)
  | array (items : List Document)
  | object (members : List (Quoted × Document))
deriving Inhabited

namespace Document

def ofText (s : String) : Document := .text (Quoted.ofText s)

def ofNat (n : Nat) : Document := .numeral (.ofNat n)

def record (members : List (String × Document)) : Document :=
  .object (members.map fun (k, d) ↦ (Quoted.ofText k, d))

def ofOption {α : Type} (write : α → Document) : Option α → Document
  | none => .null
  | some a => write a

mutual

def nesting : Document → Nat
  | .null | .bool _ | .numeral _ | .text _ => 0
  | .array items => nestingItems items + 1
  | .object members => nestingMembers members + 1
termination_by structural d => d

def nestingItems : List Document → Nat
  | [] => 0
  | d :: ds => max (nesting d) (nestingItems ds)
termination_by structural ds => ds

def nestingMembers : List (Quoted × Document) → Nat
  | [] => 0
  | (_, d) :: ms => max (nesting d) (nestingMembers ms)
termination_by structural ms => ms

end

mutual

def tokens : Document → List Token
  | .null => [.null]
  | .bool b => [.bool b]
  | .numeral n => [.numeral n]
  | .text q => [.text q]
  | .array [] => [.beginArray, .endArray]
  | .array (d :: ds) => .beginArray :: tokens d ++ tokensItems ds ++ [.endArray]
  | .object [] => [.beginObject, .endObject]
  | .object ((k, d) :: ms) =>
    .beginObject :: .text k :: .colon :: tokens d ++ tokensMembers ms ++ [.endObject]
termination_by structural d => d

def tokensItems : List Document → List Token
  | [] => []
  | d :: ds => .comma :: tokens d ++ tokensItems ds
termination_by structural ds => ds

def tokensMembers : List (Quoted × Document) → List Token
  | [] => []
  | (k, d) :: ms => .comma :: .text k :: .colon :: tokens d ++ tokensMembers ms
termination_by structural ms => ms

end

end Document

end AnyFlow.Json
