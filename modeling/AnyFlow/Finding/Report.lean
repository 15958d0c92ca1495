import AnyFlow.Finding.Basic

namespace AnyFlow

abbrev FindingKey := Nat × Message × Dict String String

/-- What makes two findings the same. Their rule and location play no part. -/
def Finding.key (f : Finding) : FindingKey := (f.anchor, f.message, f.data)

theorem Finding.key_eq_iff {f g : Finding} :
    f.key = g.key ↔ f.anchor = g.anchor ∧ f.message = g.message ∧ f.data = g.data := by
  simp [key]

structure Report where
  findings : List Finding
deriving DecidableEq

namespace Report

def empty : Report := ⟨[]⟩

instance : Inhabited Report := ⟨empty⟩

def count (r : Report) : Nat := r.findings.length

def isNew (r : Report) (f : Finding) : Bool := r.findings.all fun g ↦ g.key != f.key

def add (r : Report) (f : Finding) : Report :=
  if r.isNew f then ⟨r.findings ++ [f]⟩ else r

def addAll (r : Report) (fs : List Finding) : Report := fs.foldl add r

end Report

end AnyFlow
