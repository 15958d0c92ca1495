import AnyFlow.Decimal.Shortest
import AnyFlow.Json.Numeral

namespace AnyFlow.Json

inductive Number
  | int (n : Int)
  | float (x : Binary64)
deriving DecidableEq, Inhabited

namespace Numeral

def digitsOfNat (n : Nat) : List (Fin 10) := (Nat.toDigits 10 n).filterMap digit?

/-- Appends whole digits to `n` while it stays below `2 ^ 64`; tells also how many are left. -/
def takeWhole (n : Nat) : List (Fin 10) → Nat × Nat
  | [] => (n, 0)
  | d :: ds => if 10 * n + d.val < UInt64.size then takeWhole (10 * n + d.val) ds
    else (n, ds.length + 1)

def takeFraction (n : Nat) : List (Fin 10) → Nat × Nat
  | [] => (n, 0)
  | d :: ds =>
    if 10 * n + d.val < UInt64.size then
      let r := takeFraction (10 * n + d.val) ds
      (r.1, r.2 + 1)
    else (n, 0)

/-- The binary64 value. Digits beyond those that 64 bits hold are dropped before rounding. -/
def toFloat? (n : Numeral) : Option Binary64 :=
  let whole := takeWhole 0 (digitsOfNat n.whole)
  let all := takeFraction whole.1 n.fraction
  (Binary64.ofScaled? all.1 (whole.2 - all.2 + n.exponent.getD 0)).map (·.withSign n.negative)

/-- Positional notation holds from `10 ^ (-5)` up to below `10 ^ 16` and always has a fraction;
outside it the first digit stands before the point and an exponent is written. -/
def ofDecimal (negative : Bool) (d : Decimal) : Numeral :=
  let ds := digitsOfNat d.digits
  let zero : Fin 10 := ⟨0, by decide⟩
  let point : Int := ds.length + d.exponent
  if -4 ≤ point ∧ point ≤ 16 then
    if 0 ≤ d.exponent then ⟨negative, d.digits * Nat.pow 10 d.exponent.toNat, [zero], none⟩
    else if 0 < point then
      ⟨negative, natOfDigits (ds.take point.toNat), ds.drop point.toNat, none⟩
    else ⟨negative, 0, List.replicate (-point).toNat zero ++ ds, none⟩
  else ⟨negative, natOfDigits (ds.take 1), ds.drop 1, some (point - 1)⟩

def ofFloat (x : Binary64) : Numeral := ofDecimal x.negative x.shortest

end Numeral

namespace Number

/-- Integers of 64 bits, signed or unsigned, stay integers, except minus zero. A number too large
for binary64 has no value. -/
def ofNumeral? (n : Numeral) : Option Number :=
  if n.isIntegral ∧ ¬n.negative ∧ n.whole < UInt64.size then some (.int n.whole)
  else if n.isIntegral ∧ n.negative ∧ 0 < n.whole ∧ n.whole ≤ Nat.pow 2 63 then some (.int (-n.whole))
  else n.toFloat?.map .float

def toNumeral : Number → Numeral
  | .int n => .ofInt n
  | .float x => .ofFloat x

def toFloat? : Number → Option Binary64
  | .int n => (Binary64.ofNat? n.natAbs).map (·.withSign (decide (n < 0)))
  | .float x => some x

end Number

end AnyFlow.Json
