import AnyFlow.Proofs.Json.Text

namespace AnyFlow.Json

namespace Numeral

variable {cs rest : List Char} {c : Char}

theorem readDigits_append {ds : List (Fin 10)} (h : readDigits cs = (ds, c :: rest))
    (s : List Char) : readDigits (cs ++ s) = (ds, c :: rest ++ s) := by
  induction cs generalizing ds with
  | nil => cases h
  | cons d cs ih =>
    rw [List.cons_append, readDigits]
    rw [readDigits] at h
    cases hd : digit? d with
    | none =>
      rw [hd] at h
      cases h
      rfl
    | some x =>
      rw [hd] at h
      obtain ⟨rfl, hrest⟩ := Prod.mk.inj h
      rw [ih (Prod.ext rfl hrest)]

theorem readWhole_append {n : Nat} (h : readWhole cs = some (n, c :: rest)) (s : List Char) :
    readWhole (cs ++ s) = some (n, c :: rest ++ s) := by
  rw [readWhole] at h
  split at h
  · cases h
  · rename_i d ds tail hd
    split at h
    · cases h
    · rename_i hzero
      cases h
      rw [readWhole, readDigits_append hd]
      exact if_neg hzero

theorem readFraction_append {ds : List (Fin 10)} (h : readFraction cs = some (ds, c :: rest))
    (s : List Char) : readFraction (cs ++ s) = some (ds, c :: rest ++ s) := by
  rw [readFraction.eq_def] at h
  split at h
  · rename_i tail
    split at h
    · cases h
    · rename_i es tail' hne hd
      cases h
      obtain ⟨e, es, rfl⟩ := List.exists_cons_of_ne_nil hne
      rw [List.cons_append, readFraction, readDigits_append hd]
  · rename_i hpoint
    cases h
    rw [List.cons_append, readFraction]
    exact fun t he ↦ hpoint rest (by rw [(List.cons.inj he).1])

theorem readMagnitude_append {negative : Bool} {e : Option Int}
    (h : readMagnitude negative cs = some (e, c :: rest)) (s : List Char) :
    readMagnitude negative (cs ++ s) = some (e, c :: rest ++ s) := by
  rw [readMagnitude] at h
  split at h
  · cases h
  · rename_i ds tail hne hd
    cases h
    obtain ⟨d, ds, rfl⟩ := List.exists_cons_of_ne_nil hne
    rw [readMagnitude, readDigits_append hd]

theorem readExponent_append {e : Option Int} (h : readExponent cs = some (e, c :: rest))
    (s : List Char) : readExponent (cs ++ s) = some (e, c :: rest ++ s) := by
  rw [readExponent.eq_def] at h
  split at h
  · rename_i d tail
    rw [List.cons_append, readExponent.eq_def]
    split at h
    · rename_i hd
      simp only [if_pos hd]
      split at h
      · exact readMagnitude_append h s
      · exact readMagnitude_append h s
      · rename_i hminus hplus
        cases tail with
        | nil => cases h
        | cons x tail =>
          rw [List.cons_append]
          split
          · rename_i he
            exact absurd (by rw [(List.cons.inj he).1]) (hminus tail)
          · rename_i he
            exact absurd (by rw [(List.cons.inj he).1]) (hplus tail)
          · exact readMagnitude_append h s
    · rename_i hd
      cases h
      exact if_neg hd
  · cases h

theorem readUnsigned_append {negative : Bool} {n : Numeral}
    (h : readUnsigned negative cs = some (n, c :: rest)) (s : List Char) :
    readUnsigned negative (cs ++ s) = some (n, c :: rest ++ s) := by
  simp only [readUnsigned, Option.bind_eq_bind, Option.bind_eq_some_iff] at h
  obtain ⟨⟨whole, cs₁⟩, hwhole, ⟨fraction, cs₂⟩, hfraction, ⟨e, cs₃⟩, hexponent, h⟩ := h
  cases h
  -- each part ends before a character, since the last one does
  cases cs₂ with
  | nil => cases hexponent
  | cons c₂ cs₂ =>
    cases cs₁ with
    | nil => cases hfraction
    | cons c₁ cs₁ =>
      simp only [readUnsigned, readWhole_append hwhole, readFraction_append hfraction,
        readExponent_append hexponent, Option.bind_eq_bind, Option.bind_some]
      rfl

theorem read_append {n : Numeral} (h : read cs = some (n, c :: rest)) (s : List Char) :
    read (cs ++ s) = some (n, c :: rest ++ s) := by
  rw [read.eq_def] at h
  split at h
  · exact readUnsigned_append h s
  · rename_i hminus
    cases cs with
    | nil => cases h
    | cons d cs =>
      rw [List.cons_append, read]
      · exact readUnsigned_append h s
      · exact fun t he ↦ hminus cs (by rw [(List.cons.inj he).1])

/-- A numeral begins with a minus sign or a digit. -/
theorem head_of_read {n : Numeral} (h : read cs = some (n, rest)) :
    ∃ c cs', cs = c :: cs' ∧ (c = '-' ∨ (digit? c).isSome) := by
  rw [read.eq_def] at h
  split at h
  · exact ⟨_, _, rfl, .inl rfl⟩
  · simp only [readUnsigned, Option.bind_eq_bind, Option.bind_eq_some_iff] at h
    obtain ⟨⟨whole, cs₁⟩, hwhole, -⟩ := h
    cases cs with
    | nil => cases hwhole
    | cons c cs =>
      refine ⟨c, cs, rfl, .inr ?_⟩
      cases hc : digit? c with
      | some d => rfl
      | none =>
        rw [readWhole, readDigits, hc] at hwhole
        cases hwhole

end Numeral

namespace Quoted

theorem read_append {cs rest : List Char} {q : Quoted} (h : read cs = some (q, rest))
    (s : List Char) : read (cs ++ s) = some (q, rest ++ s) := by
  fun_induction read cs generalizing q rest with
  | case1 => cases h
  | case2 tail =>
    cases h
    rfl
  | case3 a b c d tail ih =>
    simp only [Option.bind_eq_bind, Option.bind_eq_some_iff] at h
    obtain ⟨x₁, h₁, x₂, h₂, x₃, h₃, x₄, h₄, ⟨q', rest'⟩, htail, h⟩ := h
    cases h
    simp only [List.cons_append]
    rw [read, h₁, h₂, h₃, h₄, ih htail]
    rfl
  | case4 e tail hu ih =>
    simp only [Option.bind_eq_bind, Option.bind_eq_some_iff] at h
    obtain ⟨x, hx, ⟨q', rest'⟩, htail, h⟩ := h
    cases h
    simp only [List.cons_append]
    rw [read, hx, ih htail]
    · rfl
    · rintro _ _ _ _ _ rfl
      cases hx
  | case5 c tail hquote hu hslash ih =>
    simp only [Option.bind_eq_bind, Option.bind_eq_some_iff] at h
    obtain ⟨⟨q', rest'⟩, htail, h⟩ := h
    -- a backslash at the end of the text would have no string after it
    have hplain : c ≠ '\\' := by
      rintro rfl
      cases tail with
      | nil => cases htail
      | cons e tail => exact hslash e tail rfl rfl
    split at h
    · rename_i hc
      cases h
      rw [List.cons_append, read, ih htail]
      · exact if_pos hc
      · exact hquote
      · intro _ _ _ _ _ he
        exact absurd he hplain
      · intro _ _ he
        exact absurd he hplain
    · cases h

end Quoted

namespace Token

variable {cs rest : List Char} {t : Token} {ts : List Token}

/-- Every other token begins with a character of its own. -/
theorem read_of_numeral {c : Char} (h : c = '-' ∨ (Numeral.digit? c).isSome) :
    read (c :: cs) = (Numeral.read (c :: cs)).map fun (n, rest) ↦ (.numeral n, rest) := by
  rw [read]
  all_goals
    intro _ he
    rw [(List.cons.inj he).1] at h
    revert h
    decide

theorem read_append (h : read cs = some (t, rest)) (hrest : t.isNumeral → rest ≠ [])
    (s : List Char) : read (cs ++ s) = some (t, rest ++ s) := by
  rw [read.eq_def] at h
  split at h
  case h_10 =>
    obtain ⟨⟨q, tail⟩, hq, he⟩ := Option.map_eq_some_iff.mp h
    cases he
    rw [List.cons_append, read, Quoted.read_append hq, Option.map_some]
  case h_11 =>
    obtain ⟨⟨n, tail⟩, hn, he⟩ := Option.map_eq_some_iff.mp h
    cases he
    obtain ⟨c, tail, rfl⟩ := List.exists_cons_of_ne_nil (hrest rfl)
    obtain ⟨d, cs, rfl, hd⟩ := Numeral.head_of_read hn
    have hread := Numeral.read_append hn s
    rw [List.cons_append] at hread ⊢
    rw [read_of_numeral hd, hread, Option.map_some]
  all_goals
    cases h
    rfl

/-- How the tokens of a text are found: white space is skipped, and a token begins at any other
character. -/
inductive Scans : List Char → List Token → Prop
  | nil : Scans [] []
  | blank {c : Char} {cs : List Char} {ts : List Token} (hc : isBlank c) (h : Scans cs ts) :
    Scans (c :: cs) ts
  | token {c : Char} {cs rest : List Char} {t : Token} {ts : List Token}
    (hc : isBlank c = false) (hread : read (c :: cs) = some (t, rest)) (h : Scans rest ts) :
    Scans (c :: cs) (t :: ts)

theorem scans_of_scan (h : scan cs = some ts) : Scans cs ts := by
  have hwithin (n : Nat) (cs : List Char) (ts : List Token) (h : scanWithin n cs = some ts) :
      Scans cs ts := by
    induction n generalizing cs ts with
    | zero =>
      cases cs with
      | nil =>
        cases h
        exact .nil
      | cons c cs => cases h
    | succ n ih =>
      cases cs with
      | nil =>
        cases h
        exact .nil
      | cons c cs =>
        rw [scanWithin] at h
        split at h
        · rename_i hc
          exact .blank hc (ih cs ts h)
        · rename_i hc
          simp only [Option.bind_eq_bind, Option.bind_eq_some_iff] at h
          obtain ⟨⟨t, rest⟩, hread, us, hus, h⟩ := h
          cases h
          exact .token (Bool.not_eq_true _ ▸ hc) hread (ih rest us hus)
  exact hwithin cs.length cs ts h

/-- The tokens of a text that does not end in a numeral stay when the text goes on. -/
theorem Scans.of_append {s : List Char} {us : List Token} (h : Scans cs ts)
    (hts : ∀ t ∈ ts.getLast?, t.isNumeral = false) (hus : Scans (cs ++ s) us) :
    ∃ vs, us = ts ++ vs ∧ Scans s vs := by
  induction h generalizing us with
  | nil => exact ⟨us, rfl, hus⟩
  | blank hc _ ih =>
    cases hus with
    | blank _ hus => exact ih hts hus
    | token hc' => rw [hc] at hc'; cases hc'
  | @token c cs rest t ts hc hread h ih =>
    have hrest : t.isNumeral → rest ≠ [] := by
      rintro ht rfl
      cases h
      rw [hts t rfl] at ht
      cases ht
    have htail : ∀ u ∈ ts.getLast?, u.isNumeral = false := fun u hu ↦ by
      cases ts with
      | nil => cases hu
      | cons v ts => exact hts u (by rwa [List.getLast?_cons_cons])
    cases hus with
    | blank hc' => rw [hc] at hc'; cases hc'
    | token _ hread' hus =>
      have hlong := read_append hread hrest s
      rw [List.cons_append] at hlong
      obtain ⟨rfl, rfl⟩ := Prod.mk.inj (Option.some.inj (hread'.symm.trans hlong))
      obtain ⟨vs, rfl, hvs⟩ := ih htail hus
      exact ⟨vs, rfl, hvs⟩

theorem Scans.blank_of_nil (h : Scans cs []) : ∀ c ∈ cs, isBlank c := by
  generalize hts : ([] : List Token) = ts at h
  induction h with
  | nil => exact nofun
  | blank hc _ ih => exact List.forall_mem_cons.mpr ⟨hc, ih hts⟩
  | token => cases hts

end Token

end AnyFlow.Json
