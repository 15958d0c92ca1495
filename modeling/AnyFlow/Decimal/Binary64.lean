namespace AnyFlow

/-- The number `mantissa * 2 ^ exponent` with a sign. Every operation rounds its exact result to the
nearest number, a tie going to the even mantissa, and has no result beyond the largest number. -/
structure Binary64 where
  negative : Bool
  mantissa : Nat
  exponent : Int
deriving DecidableEq, Inhabited

namespace Binary64

/-- The form in which each number is kept: all 53 bits of the mantissa are used, unless the
exponent is least. -/
def Canonical (x : Binary64) : Prop :=
  x.mantissa < Nat.pow 2 53 ∧ -1074 ≤ x.exponent ∧ x.exponent ≤ 971 ∧
    (Nat.pow 2 52 ≤ x.mantissa ∨ x.exponent = -1074)

instance (x : Binary64) : Decidable x.Canonical := inferInstanceAs (Decidable (_ ∧ _))

def zero : Binary64 := ⟨false, 0, -1074⟩

def isZero (x : Binary64) : Bool := x.mantissa == 0

def withSign (negative : Bool) (x : Binary64) : Binary64 := { x with negative := negative }

/-- The quotient to the nearest integer, a half to the even one. -/
def roundQuotient (num den : Nat) : Nat :=
  let q := num / den
  let r := num % den
  if 2 * r < den then q
  else if den < 2 * r then q + 1
  else q + q % 2

def power (base : Nat) (e : Int) : Nat × Nat := (Nat.pow base e.toNat, Nat.pow base (-e).toNat)

/-- The least exponent with which 53 bits hold the whole part of `num / den`. -/
def fittingExponent (num den : Nat) : Int :=
  let k : Int := (Nat.log2 num : Int) - Nat.log2 den
  let p := power 2 k
  max (-1074) (if num * p.2 < den * p.1 then k - 53 else k - 52)

def ofRatio? (num den : Nat) : Option Binary64 :=
  if num = 0 then some zero
  else
    let e := fittingExponent num den
    let p := power 2 e
    let m := roundQuotient (num * p.2) (den * p.1)
    let x : Binary64 := if m = Nat.pow 2 53 then ⟨false, Nat.pow 2 52, e + 1⟩ else ⟨false, m, e⟩
    if x.exponent ≤ 971 then some x else none

def ofNat? (n : Nat) : Option Binary64 := ofRatio? n 1

def ratio (x : Binary64) : Nat × Nat :=
  let p := power 2 x.exponent
  (x.mantissa * p.1, p.2)

def mul? (x y : Binary64) : Option Binary64 :=
  ofRatio? (x.ratio.1 * y.ratio.1) (x.ratio.2 * y.ratio.2)

def div? (x y : Binary64) : Option Binary64 :=
  ofRatio? (x.ratio.1 * y.ratio.2) (x.ratio.2 * y.ratio.1)

def tenPow? (n : Nat) : Option Binary64 := ofNat? (Nat.pow 10 n)

/-- The value of `n * 10 ^ scale` for `n` below `2 ^ 64`: `n` and the power are rounded first,
their product or quotient last. A quotient by more than `10 ^ 308` takes two steps, and beyond
`10 ^ 616` nothing is left of it. -/
def ofScaled? (n : Nat) (scale : Int) : Option Binary64 := do
  let x ← ofNat? n
  if 0 ≤ scale then
    if scale ≤ 308 then x.mul? (← tenPow? scale.toNat)
    else if x.isZero then some zero else none
  else if -308 ≤ scale then x.div? (← tenPow? (-scale).toNat)
  else if -616 ≤ scale then (← x.div? (← tenPow? 308)).div? (← tenPow? (-scale - 308).toNat)
  else some zero

end Binary64

end AnyFlow
