import AnyFlow.Decimal.Shortest
import AnyFlow.Proofs.Decimal.Rounding

namespace AnyFlow

namespace Decimal

def magnitude (d : Decimal) : ℚ := d.digits * 10 ^ d.exponent

end Decimal

namespace Binary64

variable {x : Binary64}

theorem le_of_roundsTo {p q d : Nat} (h : x.roundsTo p q d) : d * q ≤ (4 * x.mantissa + 2) * p := by
  rw [roundsTo] at h
  split at h
  · exact (of_decide_eq_true h).2
  · exact (of_decide_eq_true h).2.le

theorem onGrid?_le {t : Int} {d : Nat} (h : x.onGrid? t = some d) :
    (d : ℚ) * 10 ^ t ≤ (x.mantissa + 1 / 2) * 2 ^ x.exponent := by
  have hround : x.roundsTo ((power 2 (x.exponent - 2)).1 * (power 10 t).2)
      ((power 2 (x.exponent - 2)).2 * (power 10 t).1) d := by
    rw [onGrid?] at h
    split at h
    · rename_i hlower hupper
      dsimp only at h
      split at h
      · cases h
        exact hlower
      · cases h
        exact hupper
    · rename_i hlower _
      cases h
      exact hlower
    · rename_i _ hupper
      cases h
      exact hupper
    · cases h
  have hle : (d * ((power 2 (x.exponent - 2)).2 * (power 10 t).1) : ℚ) ≤
      (4 * x.mantissa + 2) * ((power 2 (x.exponent - 2)).1 * (power 10 t).2) := by
    exact_mod_cast le_of_roundsTo hround
  have htwo : (0 : ℚ) < (power 2 (x.exponent - 2)).2 := by exact_mod_cast (power_pos two_pos _).2
  have hten : (0 : ℚ) < (power 10 t).2 := by exact_mod_cast (power_pos (by decide) t).2
  have hunit := power_ratio 2 (x.exponent - 2)
  have hstep := power_ratio 10 t
  rw [Nat.cast_ofNat] at hunit hstep
  calc (d : ℚ) * 10 ^ t ≤ (4 * x.mantissa + 2) * 2 ^ (x.exponent - 2) := by
        rw [← hunit, ← hstep, mul_div_assoc', mul_div_assoc', div_le_div_iff₀ hten htwo]
        linarith
    _ = (x.mantissa + 1 / 2) * 2 ^ x.exponent := by
        rw [zpow_sub₀ two_ne_zero]
        norm_num
        ring

theorem shortestFrom_le (x : Binary64) (n : Nat) (t : Int) :
    (x.shortestFrom n t).magnitude ≤ (x.mantissa + 1 / 2) * 2 ^ x.exponent := by
  induction n generalizing t with
  | zero =>
    rw [shortestFrom, Decimal.magnitude, Nat.cast_zero, zero_mul]
    positivity
  | succ n ih =>
    rw [shortestFrom]
    split
    · rename_i d hd
      exact onGrid?_le hd
    · exact ih (t - 1)

theorem shortest_le (x : Binary64) :
    x.shortest.magnitude ≤ (x.mantissa + 1 / 2) * 2 ^ x.exponent := by
  rw [shortest]
  split
  · rw [Decimal.magnitude, Nat.cast_zero, zero_mul]
    positivity
  · exact x.shortestFrom_le _ _

end Binary64

end AnyFlow
