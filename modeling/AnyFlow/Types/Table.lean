import AnyFlow.Tree.Node
import AnyFlow.Types.Codec

namespace AnyFlow

structure Unresolved where
  node : Nat
  kind : Kind
deriving DecidableEq

def Unresolved.message (e : Unresolved) : String :=
  "no type recorded for node " ++ e.node.repr ++ " (" ++ e.kind.label ++ ")"

/-- An oracle answers for a node with its type or with a reason why there is none. -/
abbrev Oracle := Node → Except Unresolved Ty

namespace Oracle

def type? (o : Oracle) (n : Node) : Option Ty := (o n).toOption

/-- A node without a type is safe. -/
def exposure (o : Oracle) (n : Node) : Exposure :=
  match o.type? n with
  | some t => t.exposure
  | none => .safe

end Oracle

structure TypeTable where
  types : Dict Nat Ty

namespace TypeTable

def empty : TypeTable := ⟨.empty⟩

instance : Inhabited TypeTable := ⟨empty⟩

def get? (t : TypeTable) (id : Nat) : Option Ty := t.types.get? id

def insert (t : TypeTable) (id : Nat) (type : Ty) : TypeTable := ⟨t.types.insert id type⟩

def size (t : TypeTable) : Nat := t.types.size

def isEmpty (t : TypeTable) : Bool := t.types.isEmpty

def ofList (entries : List (Nat × Ty)) : TypeTable := ⟨.ofList entries⟩

def oracle (t : TypeTable) : Oracle := fun n ↦
  match t.get? n.id with
  | some type => .ok type
  | none => .error ⟨n.id, n.kind⟩

open Json

/-- A node number as a key: decimal digits without escapes and without a leading zero. -/
def keyId? (q : Quoted) : Option Nat := do
  let (n, rest) ← Numeral.readWhole (← q.unescaped?)
  if rest.isEmpty ∧ n < UInt64.size then some n else none

def documentOfEntries (entries : List (Nat × Ty)) : Document :=
  .record [("types", .record (entries.map fun (id, type) ↦ (id.repr, type.toDocument)))]

def toDocument (t : TypeTable) : Document := documentOfEntries t.types.entries

def decode : Decoder TypeTable := fun depth d ↦ do
  let r ← Record.ofDocument? ["types"] depth d
  return .ofList (← r.required "types" (Decoder.members keyId? Ty.decode))

def ofJson? (s : String) : Option TypeTable := Decoder.run decode s

end TypeTable

end AnyFlow
