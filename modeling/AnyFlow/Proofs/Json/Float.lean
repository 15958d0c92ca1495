import AnyFlow.Proofs.Decimal.Shortest
import AnyFlow.Proofs.Json.Numeral
import AnyFlow.Proofs.Json.Value

namespace AnyFlow.Json

open Binary64

namespace Numeral

def appendDigits (n : Nat) (ds : List (Fin 10)) : Nat := ds.foldl (fun n d ↦ 10 * n + d.val) n

variable {n : Nat} {ds es : List (Fin 10)}

theorem appendDigits_append (n : Nat) (ds es : List (Fin 10)) :
    appendDigits n (ds ++ es) = appendDigits (appendDigits n ds) es := List.foldl_append

theorem natOfDigits_cons_eq (d : Fin 10) (ds : List (Fin 10)) :
    natOfDigits (d :: ds) = appendDigits d.val ds := by
  rw [natOfDigits, List.foldl_cons, Nat.mul_zero, Nat.zero_add, appendDigits]

theorem appendDigits_eq (n : Nat) (ds : List (Fin 10)) :
    appendDigits n ds = n * 10 ^ ds.length + natOfDigits ds := by
  induction ds generalizing n with
  | nil => exact (Nat.mul_one n).symm
  | cons d ds ih =>
    rw [appendDigits, List.foldl_cons, ← appendDigits, ih, natOfDigits_cons_eq, ih,
      List.length_cons, Nat.pow_succ]
    ring

theorem le_appendDigits (n : Nat) (ds : List (Fin 10)) : n ≤ appendDigits n ds := by
  rw [appendDigits_eq]
  exact Nat.le_add_right_of_le (Nat.le_mul_of_pos_right n (Nat.pow_pos (by decide)))

theorem natOfDigits_lt (ds : List (Fin 10)) : natOfDigits ds < 10 ^ ds.length := by
  induction ds with
  | nil => exact Nat.one_pos
  | cons d ds ih =>
    have hd : (d.val + 1) * 10 ^ ds.length ≤ 10 * 10 ^ ds.length := Nat.mul_le_mul_right _ d.isLt
    rw [natOfDigits_cons_eq, appendDigits_eq, List.length_cons, Nat.pow_succ']
    rw [Nat.succ_mul] at hd
    omega

theorem natOfDigits_digitsOfNat (n : Nat) : natOfDigits (digitsOfNat n) = n := by
  obtain ⟨d, ds, hds, hvalue, -⟩ := exists_digits n
  have hread : digit? ∘ digitChar = some := funext digit?_digitChar
  rw [digitsOfNat, hds, List.filterMap_map, hread, List.filterMap_some, hvalue]

theorem digitsOfNat_ne_nil (n : Nat) : digitsOfNat n ≠ [] := by
  obtain ⟨d, ds, hds, -⟩ := exists_digits n
  have hread : digit? ∘ digitChar = some := funext digit?_digitChar
  rw [digitsOfNat, hds, List.filterMap_map, hread, List.filterMap_some]
  exact List.cons_ne_nil d ds

theorem takeWhole_of_lt (h : appendDigits n ds < UInt64.size) :
    takeWhole n ds = (appendDigits n ds, 0) := by
  induction ds generalizing n with
  | nil => rfl
  | cons d ds ih =>
    have hlt : 10 * n + d.val < UInt64.size := Nat.lt_of_le_of_lt (le_appendDigits _ ds) h
    rw [takeWhole, if_pos hlt, ih h]
    rfl

theorem takeFraction_spec (hn : n < UInt64.size) (ds : List (Fin 10)) :
    (takeFraction n ds).1 < UInt64.size ∧ (takeFraction n ds).2 ≤ ds.length ∧
      (takeFraction n ds).1 * 10 ^ (ds.length - (takeFraction n ds).2) ≤ appendDigits n ds := by
  induction ds generalizing n with
  | nil => exact ⟨hn, Nat.le_refl 0, Nat.le_of_eq (Nat.mul_one n)⟩
  | cons d ds ih =>
    rw [takeFraction]
    split
    · rename_i hlt
      obtain ⟨hsize, hlength, hle⟩ := ih hlt
      refine ⟨hsize, Nat.succ_le_succ hlength, ?_⟩
      rw [List.length_cons, Nat.add_sub_add_right]
      exact hle
    · refine ⟨hn, Nat.zero_le _, ?_⟩
      rw [appendDigits_eq]
      exact Nat.le_add_right _ _

def magnitude (n : Numeral) : ℚ :=
  appendDigits n.whole n.fraction * 10 ^ (n.exponent.getD 0 - n.fraction.length)

theorem exists_ofScaled?_of_numeral {n : Numeral} (h : n.whole < UInt64.size) :
    ∃ (k : Nat) (scale : Int), k < UInt64.size ∧ (k : ℚ) * 10 ^ scale ≤ n.magnitude ∧
      n.toFloat? = (ofScaled? k scale).map (·.withSign n.negative) := by
  obtain ⟨hsize, hlength, hle⟩ := takeFraction_spec h n.fraction
  have hwhole : takeWhole 0 (digitsOfNat n.whole) = (n.whole, 0) := by
    have hdigits : appendDigits 0 (digitsOfNat n.whole) = n.whole :=
      natOfDigits_digitsOfNat n.whole
    rw [takeWhole_of_lt (hdigits.symm ▸ h), hdigits]
  refine ⟨_, _, hsize, ?_, by rw [toFloat?, hwhole]⟩
  rw [magnitude]
  generalize takeFraction n.whole n.fraction = r at hlength hle
  generalize n.exponent.getD 0 = e
  calc (r.1 : ℚ) * 10 ^ (((0 : Nat) : Int) - r.2 + e)
      = (r.1 * 10 ^ (n.fraction.length - r.2) : Nat) * 10 ^ (e - n.fraction.length) := by
        push_cast
        rw [mul_assoc, ← zpow_natCast, ← zpow_add₀ (by norm_num), Nat.cast_sub hlength]
        congr 2
        ring
    _ ≤ appendDigits n.whole n.fraction * 10 ^ (e - n.fraction.length) := by
        gcongr

theorem appendDigits_take_drop (ds : List (Fin 10)) (k : Nat) :
    appendDigits (natOfDigits (ds.take k)) (ds.drop k) = natOfDigits ds := by
  have hsplit := appendDigits_append 0 (ds.take k) (ds.drop k)
  rw [List.take_append_drop] at hsplit
  exact hsplit.symm

theorem natOfDigits_take_lt (ds : List (Fin 10)) {k : Nat} (hk : k ≤ 16) :
    natOfDigits (ds.take k) < UInt64.size :=
  calc natOfDigits (ds.take k) < 10 ^ (ds.take k).length := natOfDigits_lt _
    _ ≤ 10 ^ 16 := Nat.pow_le_pow_right (by decide) ((List.length_take_le k ds).trans hk)
    _ < UInt64.size := by decide

theorem appendDigits_zeros (k : Nat) (ds : List (Fin 10)) :
    appendDigits 0 (List.replicate k 0 ++ ds) = natOfDigits ds := by
  induction k with
  | zero => rfl
  | succ k ih => exact ih

theorem magnitude_eq {n : Numeral} {k : Nat} {e : Int}
    (hdigits : appendDigits n.whole n.fraction = k)
    (hexponent : n.exponent.getD 0 - n.fraction.length = e) : n.magnitude = k * 10 ^ e := by
  rw [magnitude, hdigits, hexponent]

theorem isIntegral_of_fraction {n : Numeral} (h : 0 < n.fraction.length) :
    n.isIntegral = false := by
  have hne : n.fraction ≠ [] := List.length_pos_iff.mp h
  rw [isIntegral, List.isEmpty_eq_false_iff.mpr hne, Bool.false_and]

/-- The digits of a decimal are written as they are, around the point, and never as an integer. -/
theorem ofDecimal_spec (negative : Bool) (d : Decimal) :
    (ofDecimal negative d).magnitude = d.magnitude ∧
      (ofDecimal negative d).whole < UInt64.size ∧
      (ofDecimal negative d).isIntegral = false := by
  have hlength : 0 < (digitsOfNat d.digits).length :=
    List.length_pos_iff.mpr (digitsOfNat_ne_nil d.digits)
  have hdigits := natOfDigits_digitsOfNat d.digits
  obtain ⟨digits, exponent⟩ := d
  simp only [ofDecimal, Decimal.magnitude] at hdigits hlength ⊢
  generalize digitsOfNat digits = ds at hlength hdigits
  subst hdigits
  split
  · rename_i hpoint
    split
    -- all digits stand before the point, and zeros after them
    · rename_i hexponent
      obtain ⟨k, rfl⟩ := Int.eq_ofNat_of_zero_le hexponent
      refine ⟨?_, ?_, rfl⟩
      · rw [magnitude_eq (e := -1) rfl rfl]
        simp [appendDigits]
        ring
      · calc natOfDigits ds * 10 ^ k < 10 ^ ds.length * 10 ^ k :=
              Nat.mul_lt_mul_of_pos_right (natOfDigits_lt ds) (Nat.pow_pos (by decide))
          _ = 10 ^ (ds.length + k) := (Nat.pow_add 10 _ _).symm
          _ ≤ 10 ^ 16 := Nat.pow_le_pow_right (by decide) (by omega)
          _ < UInt64.size := by decide
    split
    -- the point stands among the digits
    · rename_i hneg hpos
      refine ⟨magnitude_eq (appendDigits_take_drop ds _) ?_, natOfDigits_take_lt ds (by omega),
        isIntegral_of_fraction ?_⟩
      · simp only [Option.getD_none, List.length_drop]
        omega
      · simp only [List.length_drop]
        omega
    -- all digits stand after the point, and zeros before them
    · rename_i hneg hzero
      refine ⟨magnitude_eq (appendDigits_zeros _ ds) ?_, Nat.zero_lt_succ _,
        isIntegral_of_fraction ?_⟩
      · simp only [Option.getD_none, List.length_append, List.length_replicate]
        omega
      · simp only [List.length_append]
        omega
  -- the point stands after the first digit
  · refine ⟨magnitude_eq (appendDigits_take_drop ds 1) ?_, natOfDigits_take_lt ds (by decide),
      Bool.and_false _⟩
    simp only [Option.getD_some, List.length_drop]
    omega

end Numeral

open Numeral

variable {x : Binary64}

/-- Of the two greatest numbers also the lesser is read as the greatest. -/
theorem ofNumeral?_greatest : ∀ negative : Bool, ∀ m ∈ [Nat.pow 2 53 - 1, Nat.pow 2 53 - 2],
    Number.ofNumeral? (.ofFloat ⟨negative, m, 971⟩) =
      some (.float ⟨negative, Nat.pow 2 53 - 1, 971⟩) := by
  decide +kernel

theorem half_unit_above_le (h : x.Canonical)
    (hgreat : ¬ (x.exponent = 971 ∧ x.mantissa ∈ [Nat.pow 2 53 - 1, Nat.pow 2 53 - 2])) :
    (x.mantissa + 1 / 2 : ℚ) * 2 ^ x.exponent ≤ (2 ^ 54 - 5) * 2 ^ 970 := by
  obtain ⟨hmantissa, -, hexponent, -⟩ := h
  have hpos : (0 : ℚ) < 2 ^ 970 := by positivity
  rcases hexponent.lt_or_eq with hlt | heq
  · have hm : (x.mantissa : ℚ) ≤ 2 ^ 53 - 1 := by
      have hle : x.mantissa + 1 ≤ 2 ^ 53 := hmantissa
      exact le_sub_iff_add_le.mpr (by exact_mod_cast hle)
    have hunit : (2 : ℚ) ^ x.exponent ≤ 2 ^ (970 : Int) :=
      zpow_le_zpow_right₀ one_le_two (by omega)
    rw [zpow_ofNat] at hunit
    refine mul_le_mul ?_ hunit (by positivity) (by norm_num)
    linarith
  · have hm : (x.mantissa : ℚ) ≤ 2 ^ 53 - 3 := by
      simp only [heq, true_and, List.mem_cons, List.not_mem_nil, or_false, not_or,
        Nat.pow_eq] at hgreat hmantissa
      have hle : x.mantissa + 3 ≤ 2 ^ 53 := by omega
      exact le_sub_iff_add_le.mpr (by exact_mod_cast hle)
    have hunit : (2 : ℚ) ^ (971 : Int) = 2 * 2 ^ 970 := by rw [zpow_ofNat, pow_succ']
    rw [heq, hunit, ← mul_assoc]
    refine mul_le_mul_of_nonneg_right ?_ hpos.le
    linarith

/-- The digits that are written for a float are read as some float: the shortest decimal is not far
above the float, so it is below the overflow, except for the two greatest numbers. -/
theorem exists_readsAs (h : x.Canonical) : ∃ y, x.ReadsAs y := by
  by_cases hgreat : x.exponent = 971 ∧ x.mantissa ∈ [Nat.pow 2 53 - 1, Nat.pow 2 53 - 2]
  · obtain ⟨negative, m, e⟩ := x
    obtain ⟨rfl, hm⟩ := hgreat
    exact ⟨_, ofNumeral?_greatest negative m hm⟩
  obtain ⟨hmagnitude, hwhole, hint⟩ := ofDecimal_spec x.negative x.shortest
  obtain ⟨k, scale, hk, hle, hread⟩ := exists_ofScaled?_of_numeral hwhole
  have habove := hle.trans (hmagnitude.trans_le x.shortest_le)
  obtain ⟨y, hy⟩ := exists_ofScaled? hk (habove.trans (half_unit_above_le h hgreat))
  have hfloat : (ofFloat x).toFloat? = some (y.withSign (ofFloat x).negative) := by
    rw [ofFloat, hread, hy, Option.map_some]
  have hint' : (ofFloat x).isIntegral = false := hint
  refine ⟨y.withSign (ofFloat x).negative, ?_⟩
  rw [ReadsAs, Number.ofNumeral?, hint', if_neg (by simp), if_neg (by simp), hfloat,
    Option.map_some]

theorem readsAs_reread (h : x.Canonical) : x.ReadsAs x.reread := by
  obtain ⟨y, hy⟩ := exists_readsAs h
  rwa [hy.reread_eq]

theorem reread_eq_self_iff (h : x.Canonical) : x.reread = x ↔ x.ReadsBack := by
  refine ⟨fun he ↦ ?_, ReadsAs.reread_eq⟩
  have hread := readsAs_reread h
  rwa [he] at hread

end AnyFlow.Json
