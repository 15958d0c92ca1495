import AnyFlow.Finding.Message
import AnyFlow.Text.Substitution
import AnyFlow.Tree.Node

namespace AnyFlow

/-- The name under which a host knows the analysis. -/
def ruleId : String := "no-unsafe-any"

structure Finding where
  rule : String
  message : Message
  anchor : Nat
  location : Location
  data : Dict String String
deriving DecidableEq

namespace Finding

/-- The finding of the analysis on a node. Of two data with one key the later one stays. -/
def ofNode (n : Node) (message : Message) (data : List (String × String)) : Finding :=
  ⟨ruleId, message, n.id, n.location, .ofList data⟩

/-- Fills the holes of a text one datum after the other, so that a text put in may be filled
again by a later key. -/
def fill (text : String) (data : List (String × String)) : String :=
  data.foldl (fun text x ↦ Text.replace (Template.mark x.1) x.2 text) text

def render (f : Finding) : String := fill f.message.template.text f.data.entries

open Json

def toDocument (f : Finding) : Document :=
  .record [("rule_id", .ofText f.rule), ("message", .ofText (Keyword.word f.message)),
    ("anchor", .ofNat f.anchor), ("meta", f.location.toDocument),
    ("data", .record (f.data.entries.map fun x ↦ (x.1, .ofText x.2)))]

def decode : Decoder Finding := fun depth d ↦ do
  let r ← Record.ofDocument? ["rule_id", "message", "anchor", "meta", "data"] depth d
  let rule ← r.required "rule_id" Decoder.text
  let message ← r.required "message" Decoder.keyword
  let anchor ← r.required "anchor" Decoder.nat
  let location ← r.required "meta" Location.decode
  let data ← r.withDefault "data" [] (Decoder.members Quoted.text? Decoder.text)
  return ⟨rule, message, anchor, location, .ofList data⟩

end Finding

end AnyFlow
