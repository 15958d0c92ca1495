import AnyFlow.Json.Document.Reader
import AnyFlow.Json.Value
import AnyFlow.Keyword

namespace AnyFlow.Json

def maxDepth : Nat := 127

/-- A decoder is told how many containers may still open, and opens one for each array or object
that it looks into. -/
abbrev Decoder (α : Type) := (depth : Nat) → Document → Option α

namespace Decoder

variable {α : Type}

def bool : Decoder Bool
  | _, .bool b => some b
  | _, _ => none

def text : Decoder String
  | _, .text q => q.text?
  | _, _ => none

/-- An unsigned integer of 64 bits, written without point and exponent. -/
def nat : Decoder Nat
  | _, .numeral n => n.nat?.filter (· < UInt64.size)
  | _, _ => none

def value : Decoder Value := fun depth d ↦
  if d.nesting ≤ depth then Value.ofDocument? d else none

def optional (read : Decoder α) : Decoder (Option α)
  | _, .null => some none
  | depth, d => (read depth d).map some

def list (read : Decoder α) : Decoder (List α)
  | depth + 1, .array items => items.mapM (read depth)
  | _, _ => none

def members {κ : Type} (key : Quoted → Option κ) (read : Decoder α) : Decoder (List (κ × α))
  | depth + 1, .object ms => ms.mapM fun (k, d) ↦ do
    let k ← key k
    let a ← read depth d
    return (k, a)
  | _, _ => none

/-- A word stands alone or as the only key of an object, with the value null. -/
def keyword [Keyword α] : Decoder α
  | _, .text q => q.text?.bind Keyword.ofWord?
  | _ + 1, .object [(k, .null)] => k.text?.bind Keyword.ofWord?
  | _, _ => none

/-- A word that describes a tagged value. An empty object may stand for its null. -/
def innerKeyword [Keyword α] : Decoder α
  | _ + 1, .object [(k, .object [])] => k.text?.bind Keyword.ofWord?
  | depth, d => keyword depth d

def run (read : Decoder α) (s : String) : Option α := (Document.parse? s).bind (read maxDepth)

end Decoder

end AnyFlow.Json
