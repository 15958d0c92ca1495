import AnyFlow.Decimal.Binary64

namespace AnyFlow

structure Decimal where
  digits : Nat
  exponent : Int
deriving DecidableEq, Inhabited

namespace Binary64

/-- Half the distance from a number to its lower neighbour, in quarters of the unit of the
mantissa. Below a power of two the neighbours are closer. -/
def lowerGap (x : Binary64) : Nat :=
  if x.mantissa = Nat.pow 2 52 ∧ -1074 < x.exponent then 1 else 2

/-- The point `d` of a grid lies where numbers round to `x`. The ends of that interval belong to
it exactly when the mantissa is even. A quarter of the unit of the mantissa has length `p`, and a
step of the grid length `q`. -/
def roundsTo (x : Binary64) (p q d : Nat) : Bool :=
  let low := (4 * x.mantissa - x.lowerGap) * p
  let high := (4 * x.mantissa + 2) * p
  if x.mantissa % 2 = 0 then decide (low ≤ d * q ∧ d * q ≤ high)
  else decide (low < d * q ∧ d * q < high)

/-- The point of the grid of step `10 ^ t` that rounds to `x`, if there is one; of two the
nearer, and the even one if they are equally near. -/
def onGrid? (x : Binary64) (t : Int) : Option Nat :=
  let two := power 2 (x.exponent - 2)
  let ten := power 10 t
  let p := two.1 * ten.2
  let q := two.2 * ten.1
  let v := 4 * x.mantissa * p
  let d := v / q
  match x.roundsTo p q d, x.roundsTo p q (d + 1) with
  | true, true =>
    let r := v % q
    if 2 * r < q ∨ (2 * r = q ∧ d % 2 = 0) then some d else some (d + 1)
  | true, false => some d
  | false, true => some (d + 1)
  | false, false => none

def shortestFrom (x : Binary64) : Nat → Int → Decimal
  | 0, _ => ⟨0, 0⟩
  | n + 1, t => match x.onGrid? t with
    | some d => ⟨d, t⟩
    | none => shortestFrom x n (t - 1)

def coarsest (x : Binary64) : Int :=
  Int.fdiv ((x.exponent + Nat.log2 x.mantissa + 1) * 1233) 4096 + 2

/-- Seventeen digits always tell a number, so a grid at most twenty steps below the coarsest one
has a hit. -/
def shortest (x : Binary64) : Decimal :=
  if x.isZero then ⟨0, 0⟩ else x.shortestFrom 24 x.coarsest

end Binary64

end AnyFlow
