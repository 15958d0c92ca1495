import AnyFlow.Decimal.Binary64
import Mathlib.Algebra.Order.Field.Power
import Mathlib.Data.Rat.Cast.Order
import Mathlib.Tactic.FieldSimp
import Mathlib.Tactic.Linarith
import Mathlib.Tactic.NormNum
import Mathlib.Tactic.Positivity
import Mathlib.Tactic.Ring

namespace AnyFlow.Binary64

def magnitude (x : Binary64) : ℚ := x.mantissa * 2 ^ x.exponent

variable {num den b : Nat} {e : Int} {x y : Binary64}

theorem power_pos (hb : 0 < b) (e : Int) : 0 < (power b e).1 ∧ 0 < (power b e).2 :=
  ⟨Nat.pow_pos hb, Nat.pow_pos hb⟩

theorem power_ratio (b : Nat) (e : Int) :
    ((power b e).1 : ℚ) / (power b e).2 = (b : ℚ) ^ e := by
  obtain ⟨n, rfl | rfl⟩ := e.eq_nat_or_neg
  · simp [power]
  · simp [power]

/-- Half a unit of the last place is the most by which a quotient is rounded. -/
theorem roundQuotient_bounds (num : Nat) (hden : 0 < den) :
    2 * num ≤ 2 * (roundQuotient num den * den) + den ∧
      2 * (roundQuotient num den * den) ≤ 2 * num + den := by
  have hnum : num / den * den + num % den = num := Nat.div_add_mod' num den
  have hmod : num % den < den := Nat.mod_lt num hden
  have hsucc : (num / den + 1) * den = num / den * den + den := Nat.succ_mul _ _
  rw [roundQuotient]
  split
  · omega
  split
  · omega
  · rcases Nat.mod_two_eq_zero_or_one (num / den) with hq | hq
    · rw [hq, Nat.add_zero]
      omega
    · rw [hq]
      omega

theorem abs_roundQuotient_sub (num : Nat) (hden : 0 < den) :
    |(roundQuotient num den : ℚ) - num / den| ≤ 1 / 2 := by
  obtain ⟨hlow, hhigh⟩ := roundQuotient_bounds num hden
  have hden' : (0 : ℚ) < den := by exact_mod_cast hden
  have hlow' : (2 * num : ℚ) ≤ 2 * (roundQuotient num den * den) + den := by exact_mod_cast hlow
  have hhigh' : (2 * (roundQuotient num den * den) : ℚ) ≤ 2 * num + den := by exact_mod_cast hhigh
  have hquot : (num : ℚ) / den * den = num := div_mul_cancel₀ _ hden'.ne'
  rw [abs_le]
  constructor
  · nlinarith
  · nlinarith

theorem two_pow_mul_zpow (n : Nat) (e : Int) : (2 : ℚ) ^ n * 2 ^ e = 2 ^ (e + n) := by
  rw [zpow_add₀ two_ne_zero, zpow_natCast, mul_comm]

theorem mul_power_lt_iff (hden : 0 < den) :
    num * (power 2 e).2 < den * (power 2 e).1 ↔ (num : ℚ) / den < 2 ^ e := by
  have hden' : (0 : ℚ) < den := by exact_mod_cast hden
  have hpower : (0 : ℚ) < (power 2 e).2 := by exact_mod_cast (power_pos two_pos e).2
  have hratio := power_ratio 2 e
  rw [Nat.cast_two] at hratio
  rw [← hratio, div_lt_div_iff₀ hden' hpower, mul_comm ((power 2 e).1 : ℚ)]
  exact_mod_cast Iff.rfl

theorem log2_quotient (hnum : 0 < num) (hden : 0 < den) :
    (2 : ℚ) ^ ((num.log2 : Int) - den.log2 - 1) ≤ num / den ∧
      (num : ℚ) / den < 2 ^ ((num.log2 : Int) - den.log2 + 1) := by
  have hden' : (0 : ℚ) < den := by exact_mod_cast hden
  have hnumLow : (2 : ℚ) ^ num.log2 ≤ num := by exact_mod_cast Nat.log2_self_le hnum.ne'
  have hnumHigh : (num : ℚ) < 2 ^ (num.log2 + 1) := by exact_mod_cast Nat.lt_log2_self
  have hdenLow : (2 : ℚ) ^ den.log2 ≤ den := by exact_mod_cast Nat.log2_self_le hden.ne'
  have hdenHigh : (den : ℚ) < 2 ^ (den.log2 + 1) := by exact_mod_cast Nat.lt_log2_self
  constructor
  · calc (2 : ℚ) ^ ((num.log2 : Int) - den.log2 - 1)
        = 2 ^ num.log2 / 2 ^ (den.log2 + 1) := by
          rw [← zpow_natCast, ← zpow_natCast, ← zpow_sub₀ two_ne_zero]
          congr 1
          push_cast
          ring
      _ ≤ num / den := by gcongr
  · calc (num : ℚ) / den < 2 ^ (num.log2 + 1) / 2 ^ den.log2 := by gcongr
      _ = 2 ^ ((num.log2 : Int) - den.log2 + 1) := by
          rw [← zpow_natCast, ← zpow_natCast, ← zpow_sub₀ two_ne_zero]
          congr 1
          push_cast
          ring

/-- The quotient has at most 53 bits before the point of the fitting exponent, and at least that
many unless the exponent is least. -/
theorem fittingExponent_spec (hnum : 0 < num) (hden : 0 < den) :
    (num : ℚ) / den < 2 ^ 53 * 2 ^ fittingExponent num den ∧
      -1074 ≤ fittingExponent num den ∧
      (fittingExponent num den = -1074 ∨
        2 ^ 52 * 2 ^ fittingExponent num den ≤ (num : ℚ) / den) := by
  obtain ⟨hlow, hhigh⟩ := log2_quotient hnum hden
  obtain ⟨e, he, hbelow, habove⟩ : ∃ e, fittingExponent num den = max (-1074) e ∧
      (num : ℚ) / den < 2 ^ (e + 53) ∧ (2 : ℚ) ^ (e + 52) ≤ num / den := by
    rw [fittingExponent]
    split
    · rename_i h
      rw [mul_power_lt_iff hden] at h
      refine ⟨_, rfl, by rwa [sub_add_cancel], ?_⟩
      rwa [show (num.log2 : Int) - den.log2 - 53 + 52 = num.log2 - den.log2 - 1 by ring]
    · rename_i h
      rw [mul_power_lt_iff hden, not_lt] at h
      refine ⟨_, rfl, ?_, by rwa [sub_add_cancel]⟩
      rwa [show (num.log2 : Int) - den.log2 - 52 + 53 = num.log2 - den.log2 + 1 by ring]
  rw [he, two_pow_mul_zpow, two_pow_mul_zpow]
  refine ⟨hbelow.trans_le ?_, le_max_left _ _, ?_⟩
  · exact zpow_le_zpow_right₀ one_le_two (by push_cast; omega)
  · rcases le_total e (-1074) with hle | hle
    · exact .inl (max_eq_left hle)
    · exact .inr (by rw [max_eq_right hle]; exact habove)

theorem magnitude_carry (m : Nat) (e : Int) :
    (if m = Nat.pow 2 53 then ⟨false, Nat.pow 2 52, e + 1⟩ else ⟨false, m, e⟩ :
      Binary64).magnitude = m * 2 ^ e := by
  split
  · rename_i hm
    rw [hm, magnitude, zpow_add_one₀ two_ne_zero]
    norm_num
    ring
  · rfl

theorem abs_round_sub (num : Nat) (hden : 0 < den) (e : Int) :
    |(roundQuotient (num * (power 2 e).2) (den * (power 2 e).1) : ℚ) * 2 ^ e - num / den| ≤
      2 ^ e / 2 := by
  obtain ⟨hpos₁, hpos₂⟩ := power_pos two_pos e
  have hround := abs_roundQuotient_sub (num * (power 2 e).2) (Nat.mul_pos hden hpos₁)
  have hratio := power_ratio 2 e
  have hunit : (0 : ℚ) < 2 ^ e := by positivity
  have hquot : ((num * (power 2 e).2 : Nat) : ℚ) / (den * (power 2 e).1 : Nat) * 2 ^ e =
      num / den := by
    have hpos₁' : ((power 2 e).1 : ℚ) ≠ 0 := by exact_mod_cast hpos₁.ne'
    have hpos₂' : ((power 2 e).2 : ℚ) ≠ 0 := by exact_mod_cast hpos₂.ne'
    rw [Nat.cast_two] at hratio
    rw [← hratio, Nat.cast_mul, Nat.cast_mul]
    field_simp
  rw [← hquot, ← sub_mul, abs_mul, abs_of_pos hunit]
  calc _ ≤ 1 / 2 * (2 : ℚ) ^ e := mul_le_mul_of_nonneg_right hround hunit.le
    _ = 2 ^ e / 2 := by ring

/-- What lies below it is rounded to a number. -/
def overflow : ℚ := (2 ^ 54 - 1) * 2 ^ 970

theorem overflow_eq : overflow = 2 ^ 1024 - 2 ^ 970 := by
  have hpow : (2 : ℚ) ^ 1024 = 2 ^ 54 * 2 ^ 970 := (pow_add 2 54 970)
  rw [overflow, hpow, sub_one_mul]

/-- The exponent stays in range: below the overflow there is no carry at the greatest exponent. -/
theorem exponent_carry_le {m : Nat} {q : ℚ} (hq : q < overflow)
    (herror : |(m : ℚ) * 2 ^ e - q| ≤ 2 ^ e / 2) (hleast : e = -1074 ∨ 2 ^ 52 * 2 ^ e ≤ q) :
    (if m = Nat.pow 2 53 then ⟨false, Nat.pow 2 52, e + 1⟩ else ⟨false, m, e⟩ :
      Binary64).exponent ≤ 971 := by
  rw [overflow_eq] at hq
  have hpos : (0 : ℚ) < 2 ^ 970 := by positivity
  have he : e ≤ 971 := by
    rcases hleast with rfl | hleast
    · decide
    · have hlt : (2 : ℚ) ^ (e + 52) < 2 ^ (1024 : Int) :=
        calc (2 : ℚ) ^ (e + 52) = 2 ^ 52 * 2 ^ e := (two_pow_mul_zpow 52 e).symm
          _ ≤ q := hleast
          _ < 2 ^ 1024 - 2 ^ 970 := hq
          _ ≤ 2 ^ (1024 : Int) := sub_le_self _ hpos.le
      have hlt := (zpow_lt_zpow_iff_right₀ one_lt_two).mp hlt
      omega
  split
  · rename_i hcarry
    have hne : e ≠ 971 := by
      rintro rfl
      have hlow := (abs_le.mp herror).2
      have hunit : (2 : ℚ) ^ (971 : Int) / 2 = 2 ^ 970 := by
        rw [zpow_ofNat, pow_succ, mul_div_cancel_right₀ _ two_ne_zero]
      have hmantissa : (m : ℚ) * 2 ^ (971 : Int) = 2 ^ 1024 := by
        rw [hcarry, Nat.pow_eq, Nat.cast_pow, Nat.cast_two, zpow_ofNat, ← pow_add]
      rw [hmantissa, hunit] at hlow
      exact absurd hq (not_lt.mpr (sub_le_comm.mp hlow))
    change e + 1 ≤ 971
    omega
  · exact he

/-- A quotient below the overflow is rounded to a number, which is off by little: relative to the
quotient, or to one if the quotient is less. -/
theorem exists_ofRatio? (hden : 0 < den) (h : (num : ℚ) / den < overflow) :
    ∃ x, ofRatio? num den = some x ∧
      |x.magnitude - num / den| ≤ max 1 ((num : ℚ) / den) / 2 ^ 53 := by
  rcases Nat.eq_zero_or_pos num with rfl | hnum
  · refine ⟨zero, rfl, ?_⟩
    rw [magnitude, zero, Nat.cast_zero, zero_mul, zero_div, sub_zero, abs_zero]
    positivity
  obtain ⟨-, -, hleast⟩ := fittingExponent_spec hnum hden
  have herror := abs_round_sub num hden (fittingExponent num den)
  generalize hm : roundQuotient (num * (power 2 (fittingExponent num den)).2)
    (den * (power 2 (fittingExponent num den)).1) = m at herror
  rw [ofRatio?, if_neg hnum.ne']
  simp only [hm]
  generalize fittingExponent num den = e at herror hleast
  rw [if_pos (exponent_carry_le h herror hleast)]
  refine ⟨_, rfl, ?_⟩
  rw [magnitude_carry]
  refine herror.trans ?_
  rcases hleast with rfl | hleast
  · have hone : (2 : ℚ) ^ (-1074 : Int) ≤ 2 ^ (-52 : Int) :=
      zpow_le_zpow_right₀ one_le_two (by decide)
    calc (2 : ℚ) ^ (-1074 : Int) / 2 ≤ 2 ^ (-52 : Int) / 2 := by gcongr
      _ = 1 / 2 ^ 53 := by norm_num
      _ ≤ max 1 ((num : ℚ) / den) / 2 ^ 53 := by gcongr; exact le_max_left _ _
  · calc (2 : ℚ) ^ e / 2 = 2 ^ 52 * 2 ^ e / 2 ^ 53 := by ring
      _ ≤ max 1 ((num : ℚ) / den) / 2 ^ 53 := by gcongr; exact hleast.trans (le_max_right _ _)

theorem magnitude_nonneg (x : Binary64) : 0 ≤ x.magnitude := by
  rw [magnitude]
  positivity

theorem ratio_snd_pos (x : Binary64) : 0 < x.ratio.2 := (power_pos two_pos _).2

theorem ratio_eq (x : Binary64) : (x.ratio.1 : ℚ) / x.ratio.2 = x.magnitude := by
  have hpower := power_ratio 2 x.exponent
  rw [Nat.cast_two] at hpower
  rw [ratio, magnitude, ← hpower, Nat.cast_mul, mul_div_assoc]

theorem ratio_fst_pos (h : 0 < x.magnitude) : 0 < x.ratio.1 := by
  rw [← ratio_eq] at h
  refine Nat.pos_of_ne_zero fun hzero ↦ ?_
  rw [hzero, Nat.cast_zero, zero_div] at h
  exact lt_irrefl 0 h

theorem exists_ofNat? {n : Nat} (h : (n : ℚ) < overflow) :
    ∃ x, ofNat? n = some x ∧ |x.magnitude - n| ≤ n / 2 ^ 53 := by
  rcases Nat.eq_zero_or_pos n with rfl | hn
  · refine ⟨zero, rfl, ?_⟩
    rw [magnitude, zero, Nat.cast_zero, zero_mul, zero_div, sub_zero, abs_zero]
  · have hone : (1 : ℚ) ≤ n := by exact_mod_cast hn
    have hquot : (n : ℚ) / (1 : Nat) = n := by rw [Nat.cast_one, div_one]
    obtain ⟨x, hx, herror⟩ := exists_ofRatio? Nat.one_pos (hquot.trans_lt h)
    rw [hquot, max_eq_right hone] at herror
    exact ⟨x, hx, herror⟩

theorem exists_mul? (h : x.magnitude * y.magnitude < overflow) : ∃ z, x.mul? y = some z := by
  have hquot : ((x.ratio.1 * y.ratio.1 : Nat) : ℚ) / (x.ratio.2 * y.ratio.2 : Nat) =
      x.magnitude * y.magnitude := by
    rw [← ratio_eq, ← ratio_eq, Nat.cast_mul, Nat.cast_mul, mul_div_mul_comm]
  obtain ⟨z, hz, -⟩ :=
    exists_ofRatio? (Nat.mul_pos x.ratio_snd_pos y.ratio_snd_pos) (hquot.trans_lt h)
  exact ⟨z, hz⟩

/-- The bound is crude: it holds for the least quotients too. -/
theorem exists_div? (hy : 0 < y.magnitude) (h : x.magnitude / y.magnitude < overflow) :
    ∃ z, x.div? y = some z ∧ z.magnitude ≤ 2 * (x.magnitude / y.magnitude) + 1 := by
  have hquot : ((x.ratio.1 * y.ratio.2 : Nat) : ℚ) / (x.ratio.2 * y.ratio.1 : Nat) =
      x.magnitude / y.magnitude := by
    rw [← ratio_eq, ← ratio_eq, Nat.cast_mul, Nat.cast_mul, div_div_div_eq]
  obtain ⟨z, hz, herror⟩ :=
    exists_ofRatio? (Nat.mul_pos x.ratio_snd_pos (ratio_fst_pos hy)) (hquot.trans_lt h)
  refine ⟨z, hz, ?_⟩
  rw [hquot] at herror
  have hnonneg : 0 ≤ x.magnitude / y.magnitude := div_nonneg x.magnitude_nonneg hy.le
  have hhigh := (abs_le.mp herror).2
  have hmax : max 1 (x.magnitude / y.magnitude) / 2 ^ 53 ≤ 1 + x.magnitude / y.magnitude := by
    rw [div_le_iff₀ (by positivity)]
    have hle : max 1 (x.magnitude / y.magnitude) ≤ 1 + x.magnitude / y.magnitude :=
      max_le (by linarith) (by linarith)
    have hone : (1 : ℚ) ≤ 2 ^ 53 := by norm_num
    nlinarith
  linarith

theorem ten_pow_lt_overflow {k : Nat} (hk : k ≤ 308) : (10 : ℚ) ^ k < overflow := by
  have hlt : 10 ^ 308 + 2 ^ 970 < 2 ^ 1024 := by decide +kernel
  calc (10 : ℚ) ^ k ≤ 10 ^ 308 := pow_le_pow_right₀ (by norm_num) hk
    _ < overflow := by
      rw [overflow_eq, lt_sub_iff_add_lt]
      exact_mod_cast hlt

theorem overflow_lt_ten_pow {k : Nat} (hk : 309 ≤ k) : overflow < (10 : ℚ) ^ k := by
  have hlt : 2 ^ 1024 < 10 ^ 309 + 2 ^ 970 := by decide +kernel
  calc overflow < 10 ^ 309 := by
        rw [overflow_eq, sub_lt_iff_lt_add]
        exact_mod_cast hlt
    _ ≤ (10 : ℚ) ^ k := pow_le_pow_right₀ (by norm_num) hk

theorem exists_tenPow? {k : Nat} (hk : k ≤ 308) :
    ∃ x, tenPow? k = some x ∧ |x.magnitude - 10 ^ k| ≤ 10 ^ k / 2 ^ 53 := by
  have hcast : ((Nat.pow 10 k : Nat) : ℚ) = 10 ^ k := by
    rw [Nat.pow_eq, Nat.cast_pow, Nat.cast_ofNat]
  obtain ⟨x, hx, herror⟩ := exists_ofNat? (hcast.trans_lt (ten_pow_lt_overflow hk))
  rw [hcast] at herror
  exact ⟨x, hx, herror⟩

theorem two_pow_lt_overflow : (2 : ℚ) ^ 70 < overflow :=
  lt_trans (by norm_num) (ten_pow_lt_overflow (k := 30) (by decide))

theorem exists_div_tenPow? {k : Nat} (hk : k ≤ 308) (hx : x.magnitude ≤ 2 ^ 68) :
    ∃ y, tenPow? k = some y ∧ ∃ z, x.div? y = some z ∧ z.magnitude ≤ 4 * x.magnitude + 1 := by
  obtain ⟨y, hy, herror⟩ := exists_tenPow? hk
  have hone : (1 : ℚ) ≤ 10 ^ k := one_le_pow₀ (by norm_num)
  have hhalf : 1 / 2 ≤ y.magnitude := by
    have hlow := (abs_le.mp herror).1
    linarith
  have hquot : x.magnitude / y.magnitude ≤ 2 * x.magnitude := by
    rw [div_le_iff₀ (by linarith)]
    nlinarith [x.magnitude_nonneg]
  have hlt : x.magnitude / y.magnitude < overflow := by
    refine lt_of_le_of_lt ?_ two_pow_lt_overflow
    linarith
  obtain ⟨z, hz, hhigh⟩ := exists_div? (by linarith) hlt
  exact ⟨y, hy, z, hz, by linarith⟩

/-- Two roundings before the last one may not lead up to the overflow from so far below it. -/
theorem rounded_product_lt {p q : ℚ}
    (h : p * q ≤ (2 ^ 54 - 5) * 2 ^ 970) : (p + p / 2 ^ 53) * (q + q / 2 ^ 53) < overflow := by
  have hpos : (0 : ℚ) < 2 ^ 970 := by positivity
  calc (p + p / 2 ^ 53) * (q + q / 2 ^ 53) = p * q * (1 + 1 / 2 ^ 53) ^ 2 := by ring
    _ ≤ (2 ^ 54 - 5) * 2 ^ 970 * (1 + 1 / 2 ^ 53) ^ 2 := by gcongr
    _ = (2 ^ 54 - 5) * (1 + 1 / 2 ^ 53) ^ 2 * 2 ^ 970 := mul_right_comm _ _ _
    _ < overflow := mul_lt_mul_of_pos_right (by norm_num) hpos

theorem exists_mul_tenPow? {n k : Nat} (hk : k ≤ 308) (hx : x.magnitude ≤ n + n / 2 ^ 53)
    (h : (n : ℚ) * 10 ^ k ≤ (2 ^ 54 - 5) * 2 ^ 970) :
    ∃ y, tenPow? k = some y ∧ ∃ z, x.mul? y = some z := by
  obtain ⟨y, hy, herror⟩ := exists_tenPow? hk
  have hyhigh : y.magnitude ≤ 10 ^ k + 10 ^ k / 2 ^ 53 := by
    have hhigh := (abs_le.mp herror).2
    linarith
  refine ⟨y, hy, exists_mul? (lt_of_le_of_lt ?_ (rounded_product_lt h))⟩
  exact mul_le_mul hx hyhigh y.magnitude_nonneg (by positivity)

theorem le_of_mul_ten_pow_le {n k : Nat} (hn : 0 < n)
    (h : (n : ℚ) * 10 ^ k ≤ (2 ^ 54 - 5) * 2 ^ 970) : k ≤ 308 := by
  by_contra hk
  have hone : (1 : ℚ) ≤ n := by exact_mod_cast hn
  have hpos : (0 : ℚ) < 2 ^ 970 := by positivity
  have hlt : overflow < overflow :=
    calc overflow < 10 ^ k := overflow_lt_ten_pow (by omega)
      _ ≤ n * 10 ^ k := le_mul_of_one_le_left (by positivity) hone
      _ ≤ (2 ^ 54 - 5) * 2 ^ 970 := h
      _ < overflow := mul_lt_mul_of_pos_right (by norm_num) hpos
  exact lt_irrefl _ hlt

/-- What lies below the overflow by two units of the greatest number is read as a number, though
both factors are rounded before their product. -/
theorem exists_ofScaled? {n : Nat} {scale : Int} (hn : n < UInt64.size)
    (h : (n : ℚ) * 10 ^ scale ≤ (2 ^ 54 - 5) * 2 ^ 970) : ∃ x, ofScaled? n scale = some x := by
  have hn' : (n : ℚ) < 2 ^ 64 := by exact_mod_cast hn
  obtain ⟨x, hx, hxerror⟩ :=
    exists_ofNat? (hn'.trans (lt_trans (by norm_num) two_pow_lt_overflow))
  have hxhigh : x.magnitude ≤ n + n / 2 ^ 53 := by
    have hhigh := (abs_le.mp hxerror).2
    linarith
  have hxsmall : x.magnitude ≤ 2 ^ 65 := by linarith
  rw [ofScaled?, hx]
  simp only [Option.bind_eq_bind, Option.bind_some]
  split
  · rename_i hscale
    obtain ⟨k, rfl⟩ := Int.eq_ofNat_of_zero_le hscale
    rw [zpow_natCast] at h
    split
    · obtain ⟨y, hy, z, hz⟩ := exists_mul_tenPow? (k := k) (by omega) hxhigh h
      exact ⟨z, by rw [Int.toNat_natCast, hy, Option.bind_some, hz]⟩
    · rename_i hk
      -- zero has no scale that is too large
      rcases Nat.eq_zero_or_pos n with rfl | hpos
      · cases hx
        exact ⟨zero, rfl⟩
      · exact absurd (Int.ofNat_le.mpr (le_of_mul_ten_pow_le hpos h)) hk
  split
  · obtain ⟨y, hy, z, hz, -⟩ :=
      exists_div_tenPow? (x := x) (k := (-scale).toNat) (by omega) (by linarith)
    exact ⟨z, by rw [hy, Option.bind_some, hz]⟩
  split
  · obtain ⟨y, hy, z, hz, hhigh⟩ := exists_div_tenPow? (x := x) (k := 308) le_rfl (by linarith)
    obtain ⟨y', hy', z', hz', -⟩ :=
      exists_div_tenPow? (x := z) (k := (-scale - 308).toNat) (by omega) (by linarith)
    exact ⟨z', by rw [hy, Option.bind_some, hz, Option.bind_some, hy', Option.bind_some, hz']⟩
  · exact ⟨zero, rfl⟩

end AnyFlow.Binary64
