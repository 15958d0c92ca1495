import Mathlib.Data.List.Flatten
import AnyFlow.Proofs.Walk
import AnyFlow.Rule.Pattern

namespace AnyFlow.Tree

variable {t : Tree} {k m : Nat} {n p c s d leaf : Node}

theorem parent?_of_top (h : t.WellLinked) (hn : t.AtLevel 0 n) : t.parent? n.id = none := by
  rw [parent?, hn.has h, Option.bind_some, hn.top_parent h, Option.bind_none]

theorem ancestorsUpTo_congr (h : t.WellLinked) {m' : Nat} (hn : t.AtLevel k n) (hm : k < m)
    (hm' : k < m') : t.ancestorsUpTo m n.id = t.ancestorsUpTo m' n.id := by
  induction k generalizing n m m' with
  | zero =>
    obtain ⟨m, rfl⟩ : ∃ i, m = i + 1 := ⟨m - 1, by omega⟩
    obtain ⟨m', rfl⟩ : ∃ i, m' = i + 1 := ⟨m' - 1, by omega⟩
    simp only [ancestorsUpTo, parent?_of_top h hn]
  | succ k ih =>
    obtain ⟨m, rfl⟩ : ∃ i, m = i + 1 := ⟨m - 1, by omega⟩
    obtain ⟨m', rfl⟩ : ∃ i, m' = i + 1 := ⟨m' - 1, by omega⟩
    obtain ⟨p, hp, hc⟩ := hn.parent
    simp only [ancestorsUpTo, h.parent?_child (hp.has h) hc]
    exact congrArg (p :: ·) (ih hp (by omega) (by omega))

theorem ancestors_of_child (h : t.WellLinked) (hp : t.AtLevel k p) (hc : c ∈ t.childrenOf p) :
    t.ancestors c.id = p :: t.ancestors p.id := by
  have hk := hp.lt_size h
  simp only [ancestors, ancestorsUpTo, h.parent?_child (hp.has h) hc]
  rw [ancestorsUpTo_congr h hp hk (Nat.lt_succ_of_lt hk)]
  rfl

theorem patternExit?_of_child (h : t.WellLinked) (hp : t.AtLevel k p)
    (hc : c ∈ t.childrenOf p) :
    t.patternExit? c = if isPatternLink c p then t.patternExit? p else some (c, p) := by
  rw [patternExit?, linksAbove, ancestors_of_child h hp hc]
  cases hl : isPatternLink c p <;> simp [hl, patternExit?, linksAbove]

def patternChildren (t : Tree) (n : Node) : List Node :=
  (t.childrenOf n).filter (isPatternLink · n)

theorem mem_patternChildren :
    c ∈ t.patternChildren p ↔ c ∈ t.childrenOf p ∧ isPatternLink c p := List.mem_filter

end AnyFlow.Tree
