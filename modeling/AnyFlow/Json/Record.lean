import AnyFlow.Json.Decoder

namespace AnyFlow.Json

/-- What a record holds in a field. An object may omit a field; an array may end before it. -/
inductive Slot
  | given (d : Document)
  | omitted
  | pastEnd
deriving Inhabited

/-- A record is an object, whose members may come in any order and whose unknown members are
skipped, or an array with the fields in their order. Inside it `depth` containers may open. -/
structure Record where
  depth : Nat
  slot : String → Slot

namespace Record

variable {α : Type}

def member? (members : List (String × Document)) (k : String) : Slot :=
  match members.lookup k with
  | some d => .given d
  | none => .omitted

def item? (fields : List String) (items : List Document) (k : String) : Slot :=
  match (fields.zip items).lookup k with
  | some d => .given d
  | none => .pastEnd

/-- A field that occurs twice makes an object no record, and so do more items than fields an
array. -/
def ofDocument? (fields : List String) : Decoder Record
  | depth + 1, .object members => do
    let members ← members.mapM fun (k, d) ↦ k.text?.map (·, d)
    if fields.all fun k ↦ (members.countP fun m ↦ m.1 == k) ≤ 1 then
      return ⟨depth, member? members⟩
    else none
  | depth + 1, .array items =>
    if items.length ≤ fields.length then some ⟨depth, item? fields items⟩ else none
  | _, _ => none

def ofClosedDocument? (fields : List String) : Decoder Record := fun depth d ↦ do
  match d with
  | .object members => guard (members.all fun m ↦ m.1.text?.any fields.contains)
  | _ => pure ()
  ofDocument? fields depth d

def required (r : Record) (k : String) (read : Decoder α) : Option α :=
  match r.slot k with
  | .given d => read r.depth d
  | _ => none

def optional (r : Record) (k : String) (read : Decoder α) : Option (Option α) :=
  match r.slot k with
  | .given d => read.optional r.depth d
  | .omitted => some none
  | .pastEnd => none

def withDefault (r : Record) (k : String) (a : α) (read : Decoder α) : Option α :=
  match r.slot k with
  | .given d => read r.depth d
  | _ => some a

end Record

/-- The tag of a record is its member `type` or its first item. -/
structure Tagged where
  tag : Document
  content : Document

namespace Tagged

def ofDocument? : Document → Option Tagged
  | .object members =>
    match members.partition fun m ↦ m.1.text? == some "type" with
    | ([(_, tag)], rest) => some ⟨tag, .object rest⟩
    | _ => none
  | .array (tag :: rest) => some ⟨tag, .array rest⟩
  | _ => none

end Tagged

end AnyFlow.Json
