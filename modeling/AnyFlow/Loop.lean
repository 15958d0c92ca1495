import Mathlib.Data.List.Perm.Subperm

namespace AnyFlow.Loop

variable {σ α β : Type}

/-- From the state `s` the iterator yields `as` and ends. An iterator that goes on for ever is
related to no list. -/
inductive Yields (next : σ → Option (α × σ)) : σ → List α → Prop
  | done {s : σ} (h : next s = none) : Yields next s []
  | more {s s' : σ} {a : α} {as : List α} (h : next s = some (a, s')) (has : Yields next s' as) :
    Yields next s (a :: as)

/-- A loop over what an iterator yields ends and gathers `bs`. Its body need not return. -/
inductive Gathers (next : σ → Option (α × σ)) (body : α → List β → Prop) : σ → List β → Prop
  | done {s : σ} (h : next s = none) : Gathers next body s []
  | turn {s s' : σ} {a : α} {bs later : List β} (h : next s = some (a, s')) (hb : body a bs)
      (hl : Gathers next body s' later) : Gathers next body s (bs ++ later)

def follow (f : α → Option α) (s : Option α) : Option (α × Option α) := s.map fun a ↦ (a, f a)

variable {next : σ → Option (α × σ)} {s : σ} {a : α} {as : List α}

theorem yields_nil_iff : Yields next s [] ↔ next s = none := by
  constructor
  · intro h
    cases h with
    | done h => exact h
  · exact .done

theorem yields_cons_iff :
    Yields next s (a :: as) ↔ ∃ s', next s = some (a, s') ∧ Yields next s' as := by
  constructor
  · intro h
    cases h with
    | more h has => exact ⟨_, h, has⟩
  · intro h
    obtain ⟨s', h, has⟩ := h
    exact .more h has

theorem Yields.unique {as' : List α} (h : Yields next s as) (h' : Yields next s as') :
    as = as' := by
  induction h generalizing as' with
  | done hn =>
    cases h' with
    | done => rfl
    | more hn' => simp [hn] at hn'
  | more hn has ih =>
    cases h' with
    | done hn' => simp [hn] at hn'
    | more hn' has' =>
      cases hn.symm.trans hn'
      rw [ih has']

theorem Yields.map {τ γ : Type} {next' : τ → Option (γ × τ)} {P : σ → Prop} {m : σ → τ} {g : α → γ}
    (hP : ∀ s a s', P s → next s = some (a, s') → P s')
    (hnext : ∀ s, P s → next' (m s) = (next s).map (Prod.map g m)) (h : Yields next s as)
    (hs : P s) : Yields next' (m s) (as.map g) := by
  induction h with
  | @done s hn =>
    refine .done ?_
    rw [hnext s hs, hn, Option.map_none]
  | @more s s' a as hn has ih =>
    refine .more ?_ (ih (hP s a s' hs hn))
    rw [hnext s hs, hn, Option.map_some, Prod.map_apply]

/-- An iterator that always stays among states which have a successor never ends. -/
theorem not_yields {P : σ → Prop} (hP : ∀ s, P s → ∃ a s', next s = some (a, s') ∧ P s')
    (hs : P s) (as : List α) : ¬ Yields next s as := by
  intro h
  induction h with
  | done hn =>
    obtain ⟨a, s', hn', -⟩ := hP _ hs
    simp [hn] at hn'
  | more hn has ih =>
    obtain ⟨a, s', hn', hs'⟩ := hP _ hs
    cases hn.symm.trans hn'
    exact ih hs'

theorem Gathers.exists_yields {body : α → List β → Prop} {f : α → List β} {bs : List β}
    (hf : ∀ a cs, body a cs → cs = f a) (h : Gathers next body s bs) :
    ∃ as, Yields next s as ∧ bs = as.flatMap f := by
  induction h with
  | done hn => exact ⟨[], .done hn, rfl⟩
  | turn hn hb hl ih =>
    obtain ⟨as, has, rfl⟩ := ih
    refine ⟨_ :: as, .more hn has, ?_⟩
    rw [hf _ _ hb, List.flatMap_cons]

/-- A loop ends if its iterator does and its body returns each time. -/
theorem Yields.gathers {body : α → List β → Prop} {f : α → List β} (h : Yields next s as)
    (hb : ∀ a ∈ as, body a (f a)) : Gathers next body s (as.flatMap f) := by
  induction h with
  | done hn => exact .done hn
  | more hn has ih =>
    have hlater := ih fun b hb' ↦ hb b (List.mem_cons_of_mem _ hb')
    exact .turn hn (hb _ List.mem_cons_self) hlater

section Follow

variable {f : α → Option α} {s : Option α} {a : α} {as : List α}

theorem yields_follow_nil_iff : Yields (follow f) s [] ↔ s = none := by
  rw [yields_nil_iff, follow, Option.map_eq_none_iff]

theorem yields_follow_cons_iff :
    Yields (follow f) s (a :: as) ↔ s = some a ∧ Yields (follow f) (f a) as := by
  rw [yields_cons_iff]
  constructor
  · intro h
    obtain ⟨s', hs, has⟩ := h
    obtain ⟨b, hb, he⟩ := Option.map_eq_some_iff.mp hs
    obtain ⟨rfl, rfl⟩ := Prod.mk.inj he
    exact ⟨hb, has⟩
  · intro h
    obtain ⟨rfl, has⟩ := h
    exact ⟨f a, rfl, has⟩

theorem yields_follow_of_append {u v : List α} (h : Yields (follow f) s (u ++ a :: v)) :
    Yields (follow f) (f a) v := by
  induction u generalizing s with
  | nil => exact (yields_follow_cons_iff.mp h).2
  | cons c u ih => exact ih (yields_follow_cons_iff.mp h).2

/-- A value that came back would lead round for ever. -/
theorem nodup_of_follow (h : Yields (follow f) s as) : as.Nodup := by
  induction as generalizing s with
  | nil => exact List.nodup_nil
  | cons a as ih =>
    have has := (yields_follow_cons_iff.mp h).2
    refine List.nodup_cons.mpr ⟨fun hmem ↦ ?_, ih has⟩
    obtain ⟨u, v, he⟩ := List.append_of_mem hmem
    have hv := yields_follow_of_append (he ▸ has)
    have hlen := congrArg List.length (has.unique hv)
    rw [he, List.length_append, List.length_cons] at hlen
    omega

theorem mem_of_follow {l : List α} (hs : ∀ a, s = some a → a ∈ l)
    (hf : ∀ a b, f a = some b → b ∈ l) (h : Yields (follow f) s as) : as ⊆ l := by
  induction as generalizing s with
  | nil => exact List.nil_subset l
  | cons a as ih =>
    obtain ⟨ha, has⟩ := yields_follow_cons_iff.mp h
    exact List.cons_subset.mpr ⟨hs a ha, ih (hf a) has⟩

/-- Values from a list are no more than the list has when they follow on one another to an end. -/
theorem length_le_of_follow {l : List α} (hs : ∀ a, s = some a → a ∈ l)
    (hf : ∀ a b, f a = some b → b ∈ l) (h : Yields (follow f) s as) : as.length ≤ l.length :=
  (List.subperm_of_subset (nodup_of_follow h) (mem_of_follow hs hf h)).length_le

end Follow

end AnyFlow.Loop
