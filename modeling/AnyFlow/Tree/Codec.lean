import AnyFlow.Json.Document.Layout
import AnyFlow.Tree.Links

namespace AnyFlow.Tree

open Json

def toDocument (t : Tree) : Document :=
  .record [("file_path", .ofText t.file), ("roots", .array (t.roots.map .ofNat)),
    ("nodes", .array (t.nodes.toList.map Node.toDocument))]

def decode : Decoder Tree := fun depth d ↦ do
  let r ← Record.ofDocument? ["file_path", "roots", "nodes"] depth d
  let file ← r.required "file_path" Decoder.text
  let roots ← r.required "roots" (Decoder.list Decoder.nat)
  let nodes ← r.required "nodes" (Decoder.list Node.decode)
  return ⟨file, roots, nodes.toArray⟩

inductive LoadError
  | undecodable
  | invalid (cause : LinkError)
deriving DecidableEq

namespace LoadError

def message : LoadError → String
  | .undecodable => "failed to parse syntax tree"
  | .invalid cause => cause.message

end LoadError

/-- A text is decoded first and its links are checked afterwards, so a tree that was loaded is well
linked. -/
def ofJson (s : String) : Except LoadError Tree :=
  match Decoder.run decode s with
  | none => .error .undecodable
  | some t => match t.checkLinks with
    | .error e => .error (.invalid e)
    | .ok () => .ok t

def toJson (t : Tree) : String := t.toDocument.indented

end AnyFlow.Tree
