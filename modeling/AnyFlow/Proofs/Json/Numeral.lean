import AnyFlow.Json.Numeral

namespace AnyFlow.Json.Numeral

variable {n : Numeral} {c : Char} {rest : List Char}

def NoDigit (rest : List Char) : Prop := ∀ c ∈ rest.head?, digit? c = none

/-- No character can carry on a numeral that ends before the text. -/
def Closes (rest : List Char) : Prop :=
  ∀ c ∈ rest.head?, digit? c = none ∧ c ≠ '.' ∧ c ≠ 'e' ∧ c ≠ 'E'

theorem closes_nil : Closes [] := by
  intro c hc
  cases hc

theorem closes_cons (h : digit? c = none ∧ c ≠ '.' ∧ c ≠ 'e' ∧ c ≠ 'E') : Closes (c :: rest) := by
  intro d hd
  cases hd
  exact h

theorem digit?_digitChar (d : Fin 10) : digit? (digitChar d) = some d := by
  revert d
  decide

theorem digitChar_ne_minus (d : Fin 10) : digitChar d ≠ '-' := by
  revert d
  decide

theorem digitChar_ne_plus (d : Fin 10) : digitChar d ≠ '+' := by
  revert d
  decide

theorem readDigits_map (ds : List (Fin 10)) (h : NoDigit rest) :
    readDigits (ds.map digitChar ++ rest) = (ds, rest) := by
  induction ds with
  | nil =>
    cases rest with
    | nil => rfl
    | cons c rest => rw [List.map_nil, List.nil_append, readDigits, h c rfl]
  | cons d ds ih => rw [List.map_cons, List.cons_append, readDigits, digit?_digitChar, ih]

theorem natOfDigits_append (ds : List (Fin 10)) (d : Fin 10) :
    natOfDigits (ds ++ [d]) = 10 * natOfDigits ds + d.val := by
  rw [natOfDigits, List.foldl_append]
  rfl

theorem exists_digits (n : Nat) : ∃ d ds, Nat.toDigits 10 n = (d :: ds).map digitChar ∧
    natOfDigits (d :: ds) = n ∧ (d = 0 → ds = []) := by
  induction n using Nat.strongRecOn with
  | ind n ih =>
    by_cases hn : n < 10
    · exact ⟨⟨n, hn⟩, [], Nat.toDigits_of_lt_base hn, Nat.zero_add n, fun _ ↦ rfl⟩
    · obtain ⟨d, ds, hds, hvalue, hzero⟩ := ih (n / 10) (by omega)
      refine ⟨d, ds ++ [⟨n % 10, by omega⟩], ?_, ?_, ?_⟩
      · rw [Nat.toDigits_of_base_le (by decide) (Nat.not_lt.mp hn), hds]
        simp [digitChar]
      · rw [← List.cons_append, natOfDigits_append, hvalue]
        exact Nat.div_add_mod n 10
      -- a leading zero would be all of `n / 10`, which is not zero
      · rintro rfl
        rw [hzero rfl] at hvalue
        have : n / 10 = 0 := hvalue.symm
        omega

theorem readWhole_toDigits (n : Nat) (h : NoDigit rest) :
    readWhole (Nat.toDigits 10 n ++ rest) = some (n, rest) := by
  obtain ⟨d, ds, hds, hvalue, hzero⟩ := exists_digits n
  rw [hds, readWhole, readDigits_map _ h]
  dsimp only
  rw [if_neg (fun hd ↦ hd.2 (hzero hd.1)), hvalue]

theorem readFraction_write (ds : List (Fin 10)) (h : NoDigit rest)
    (hpoint : rest.head? ≠ some '.') :
    readFraction (writeFraction ds ++ rest) = some (ds, rest) := by
  cases ds with
  | nil =>
    rw [writeFraction, List.nil_append, readFraction]
    rintro _ rfl
    exact hpoint rfl
  | cons d ds =>
    rw [writeFraction, List.cons_append, readFraction, readDigits_map _ h]
    exact List.cons_ne_nil d ds

/-- How a text may write an exponent: after a letter of either case, with or without a plus sign,
and with zeros before its digits. -/
inductive SpellsExponent : List Char → Option Int → Prop
  | none : SpellsExponent [] none
  | negative {mark : Char} {ds : List (Fin 10)} (hmark : mark = 'e' ∨ mark = 'E') (hds : ds ≠ []) :
    SpellsExponent (mark :: '-' :: ds.map digitChar) (some (-(natOfDigits ds : Int)))
  | positive {mark : Char} {sign : List Char} {ds : List (Fin 10)} (hmark : mark = 'e' ∨ mark = 'E')
    (hsign : sign = [] ∨ sign = ['+']) (hds : ds ≠ []) :
    SpellsExponent (mark :: (sign ++ ds.map digitChar)) (some (natOfDigits ds))

theorem spellsExponent_write (e : Option Int) : SpellsExponent (writeExponent e) e := by
  cases e with
  | none => exact .none
  | some e =>
    obtain ⟨d, ds, hds, hvalue, -⟩ := exists_digits e.natAbs
    rw [writeExponent, hds]
    by_cases he : e < 0
    · have hneg : e = -(natOfDigits (d :: ds) : Int) := by omega
      rw [if_pos he, hneg]
      exact .negative (.inl rfl) (List.cons_ne_nil d ds)
    · have hpos : e = natOfDigits (d :: ds) := by omega
      rw [if_neg he, hpos]
      exact .positive (.inl rfl) (.inr rfl) (List.cons_ne_nil d ds)

theorem readMagnitude_map (negative : Bool) {ds : List (Fin 10)} (hds : ds ≠ [])
    (h : NoDigit rest) : readMagnitude negative (ds.map digitChar ++ rest) =
      some (some (if negative then -(natOfDigits ds : Int) else natOfDigits ds), rest) := by
  obtain ⟨d, ds, rfl⟩ := List.exists_cons_of_ne_nil hds
  rw [readMagnitude, readDigits_map _ h]

theorem readExponent_spelled {cs : List Char} {e : Option Int} (he : SpellsExponent cs e)
    (h : Closes rest) : readExponent (cs ++ rest) = some (e, rest) := by
  have hdigit : NoDigit rest := fun c hc ↦ (h c hc).1
  cases he with
  | none =>
    cases rest with
    | nil => rfl
    | cons c rest =>
      obtain ⟨-, -, he, hE⟩ := h c rfl
      rw [List.nil_append, readExponent.eq_def]
      exact if_neg (not_or.mpr ⟨he, hE⟩)
  | negative hmark hds =>
    rw [List.cons_append, readExponent.eq_def]
    exact (if_pos hmark).trans (readMagnitude_map true hds hdigit)
  | @positive mark sign ds hmark hsign hds =>
    rw [List.cons_append, readExponent.eq_def]
    refine (if_pos hmark).trans ?_
    rcases hsign with rfl | rfl
    · obtain ⟨d, ds, rfl⟩ := List.exists_cons_of_ne_nil hds
      have hmagnitude := readMagnitude_map false hds hdigit
      rw [List.nil_append]
      split
      · rename_i he
        exact absurd (List.cons.inj he).1 (digitChar_ne_minus d)
      · rename_i he
        exact absurd (List.cons.inj he).1 (digitChar_ne_plus d)
      · exact hmagnitude
    · exact readMagnitude_map false hds hdigit

theorem head_spelledExponent {cs : List Char} {e : Option Int} (he : SpellsExponent cs e)
    (h : Closes rest) : NoDigit (cs ++ rest) ∧ (cs ++ rest).head? ≠ some '.' := by
  cases he with
  | none => exact ⟨fun c hc ↦ (h c hc).1, fun hp ↦ (h '.' hp).2.1 rfl⟩
  | negative hmark _ | positive hmark _ _ =>
    refine ⟨fun c hc ↦ ?_, fun hp ↦ ?_⟩
    · cases hc
      rcases hmark with rfl | rfl <;> rfl
    · rcases hmark with rfl | rfl <;> cases hp

theorem noDigit_writeFraction (ds : List (Fin 10)) (h : NoDigit rest) :
    NoDigit (writeFraction ds ++ rest) := by
  cases ds with
  | nil => exact h
  | cons d ds =>
    intro c hc
    cases hc
    rfl

/-- The text writes the numeral, in which only an exponent can be written in more ways than one. -/
def Spells (cs : List Char) (n : Numeral) : Prop :=
  ∃ exponent, SpellsExponent exponent n.exponent ∧
    cs = (if n.negative then ['-'] else []) ++ Nat.toDigits 10 n.whole ++
      writeFraction n.fraction ++ exponent

theorem spells_write (n : Numeral) : Spells n.write n := ⟨_, spellsExponent_write n.exponent, rfl⟩

theorem readUnsigned_spelled (negative : Bool) (whole : Nat) (fraction : List (Fin 10))
    {cs : List Char} {e : Option Int} (he : SpellsExponent cs e) (h : Closes rest) :
    readUnsigned negative (Nat.toDigits 10 whole ++ (writeFraction fraction ++ (cs ++ rest))) =
      some (⟨negative, whole, fraction, e⟩, rest) := by
  obtain ⟨hdigit, hpoint⟩ := head_spelledExponent he h
  simp only [readUnsigned, readWhole_toDigits whole (noDigit_writeFraction fraction hdigit),
    readFraction_write fraction hdigit hpoint, readExponent_spelled he h, Option.bind_eq_bind,
    Option.bind_some]
  rfl

theorem read_spelled {cs : List Char} (hn : Spells cs n) (h : Closes rest) :
    read (cs ++ rest) = some (n, rest) := by
  obtain ⟨exponent, he, rfl⟩ := hn
  obtain ⟨negative, whole, fraction, e⟩ := n
  have hunsigned := readUnsigned_spelled negative whole fraction he h
  cases negative with
  | true => simpa [read] using hunsigned
  | false =>
    obtain ⟨d, ds, hds, -⟩ := exists_digits whole
    rw [← hunsigned]
    simp only [Bool.false_eq_true, if_false, List.nil_append, List.append_assoc]
    rw [hds, List.map_cons, List.cons_append, read]
    intro cs he
    exact digitChar_ne_minus d (List.cons.inj he).1

theorem exists_spelled {cs : List Char} (h : Spells cs n) :
    ∃ c cs', cs = c :: cs' ∧ ∀ x, x ≠ '-' → digit? x = none → c ≠ x := by
  obtain ⟨exponent, -, rfl⟩ := h
  obtain ⟨d, ds, hds, -⟩ := exists_digits n.whole
  rw [hds]
  cases n.negative with
  | true => exact ⟨'-', _, rfl, fun x hx _ ↦ hx.symm⟩
  | false =>
    refine ⟨digitChar d, _, rfl, fun x _ hx he ↦ ?_⟩
    rw [← he, digit?_digitChar] at hx
    cases hx

end AnyFlow.Json.Numeral
