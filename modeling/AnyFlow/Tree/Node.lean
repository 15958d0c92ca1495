import AnyFlow.Tree.Kind
import AnyFlow.Tree.Location
import AnyFlow.Tree.Role

namespace AnyFlow

structure Node where
  id : Nat
  parent : Option Nat
  kind : Kind
  role : Option Role
  /-- The name of an identifier, the value of a literal, or the text of a type reference. -/
  value : Json.Value
  children : List Nat
  location : Location
deriving Inhabited

namespace Node

def text? (n : Node) : Option String := n.value.text?

def isIdentifier (n : Node) (name : String) : Bool :=
  n.kind == .identifier && n.text? == some name

def isNullLiteral (n : Node) : Bool := n.kind == .literal && n.value.isNull

open Json

def toDocument (n : Node) : Document :=
  .record [("id", .ofNat n.id), ("parent", .ofOption .ofNat n.parent),
    ("kind", n.kind.toDocument),
    ("field", .ofOption (fun r ↦ .ofText (Keyword.word r)) n.role),
    ("value", n.value.toDocument), ("children", .array (n.children.map .ofNat)),
    ("meta", n.location.toDocument)]

def decode : Decoder Node := fun depth d ↦ do
  let r ← Record.ofDocument? ["id", "parent", "kind", "field", "value", "children", "meta"] depth d
  let id ← r.required "id" Decoder.nat
  let parent ← r.optional "parent" Decoder.nat
  let kind ← r.required "kind" Kind.decode
  let role ← r.withDefault "field" none (Decoder.optional Decoder.keyword)
  let value ← r.withDefault "value" .null Decoder.value
  let children ← r.withDefault "children" [] (Decoder.list Decoder.nat)
  let location ← r.required "meta" Location.decode
  return ⟨id, parent, kind, role, value, children, location⟩

end Node

end AnyFlow
