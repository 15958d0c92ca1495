import AnyFlow.Dict
import AnyFlow.Json.Document
import AnyFlow.Json.Number

namespace AnyFlow.Json

/-- What a document means: an object has the last member of each key, in the order of the keys. -/
inductive Value
  | null
  | bool (b : Bool)
  | number (n : Number)
  | text (s : String)
  | array (items : List Value)
  | object (members : List (String × Value))
deriving Inhabited

namespace Value

def text? : Value → Option String
  | .text s => some s
  | _ => none

def isNull : Value → Bool
  | .null => true
  | _ => false

mutual

/-- A document with a string that has no text, or with a number that is too large, has no
value. -/
def ofDocument? : Document → Option Value
  | .null => some .null
  | .bool b => some (.bool b)
  | .numeral n => (Number.ofNumeral? n).map .number
  | .text q => q.text?.map .text
  | .array items => (ofItems? items).map .array
  | .object members => (ofMembers? members).map (.object <| Entries.ofList ·)
termination_by structural d => d

def ofItems? : List Document → Option (List Value)
  | [] => some []
  | d :: ds => do
    let v ← ofDocument? d
    let vs ← ofItems? ds
    return v :: vs
termination_by structural ds => ds

def ofMembers? : List (Quoted × Document) → Option (List (String × Value))
  | [] => some []
  | (k, d) :: ms => do
    let k ← k.text?
    let v ← ofDocument? d
    let vs ← ofMembers? ms
    return (k, v) :: vs
termination_by structural ms => ms

end

mutual

def toDocument : Value → Document
  | .null => .null
  | .bool b => .bool b
  | .number n => .numeral n.toNumeral
  | .text s => .ofText s
  | .array items => .array (toItems items)
  | .object members => .object (toMembers members)
termination_by structural v => v

def toItems : List Value → List Document
  | [] => []
  | v :: vs => toDocument v :: toItems vs
termination_by structural vs => vs

def toMembers : List (String × Value) → List (Quoted × Document)
  | [] => []
  | (k, v) :: vs => (Quoted.ofText k, toDocument v) :: toMembers vs
termination_by structural vs => vs

end

end Value

namespace Document

def fits (depth : Nat) (d : Document) : Bool :=
  decide (d.nesting ≤ depth) && (Value.ofDocument? d).isSome

end Document

end AnyFlow.Json
