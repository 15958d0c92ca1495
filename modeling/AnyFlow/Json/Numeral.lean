namespace AnyFlow.Json

/-- The digits of the fraction and the presence of an exponent are kept, since these decide whether
a number is an integer. -/
structure Numeral where
  negative : Bool
  whole : Nat
  /-- The digits after the point; without digits there is no point. -/
  fraction : List (Fin 10)
  exponent : Option Int
deriving DecidableEq, Inhabited

namespace Numeral

def ofNat (n : Nat) : Numeral := ⟨false, n, [], none⟩

def ofInt (n : Int) : Numeral := ⟨decide (n < 0), n.natAbs, [], none⟩

def isIntegral (n : Numeral) : Bool := n.fraction.isEmpty && n.exponent.isNone

def nat? (n : Numeral) : Option Nat :=
  if n.isIntegral && !n.negative then some n.whole else none

def digit? (c : Char) : Option (Fin 10) :=
  if c.isDigit then some (Fin.ofNat 10 (c.toNat - '0'.toNat)) else none

def digitChar (d : Fin 10) : Char := Nat.digitChar d

def writeFraction : List (Fin 10) → List Char
  | [] => []
  | ds => '.' :: ds.map digitChar

def writeExponent : Option Int → List Char
  | none => []
  | some e => 'e' :: (if e < 0 then '-' else '+') :: Nat.toDigits 10 e.natAbs

def write (n : Numeral) : List Char :=
  (if n.negative then ['-'] else []) ++ Nat.toDigits 10 n.whole ++
    writeFraction n.fraction ++ writeExponent n.exponent

def readDigits : List Char → List (Fin 10) × List Char
  | [] => ([], [])
  | c :: rest => match digit? c with
    | some d => (d :: (readDigits rest).1, (readDigits rest).2)
    | none => ([], c :: rest)

def natOfDigits (ds : List (Fin 10)) : Nat := ds.foldl (fun n d ↦ 10 * n + d.val) 0

def readWhole (cs : List Char) : Option (Nat × List Char) :=
  match readDigits cs with
  | ([], _) => none
  | (d :: ds, rest) => if d = 0 ∧ ds ≠ [] then none else some (natOfDigits (d :: ds), rest)

def readFraction : List Char → Option (List (Fin 10) × List Char)
  | '.' :: rest => match readDigits rest with
    | ([], _) => none
    | (ds, rest) => some (ds, rest)
  | rest => some ([], rest)

def readMagnitude (negative : Bool) (cs : List Char) : Option (Option Int × List Char) :=
  match readDigits cs with
  | ([], _) => none
  | (ds, rest) =>
    let n : Int := natOfDigits ds
    some (some (if negative then -n else n), rest)

def readExponent : List Char → Option (Option Int × List Char)
  | c :: rest =>
    if c = 'e' ∨ c = 'E' then match rest with
      | '-' :: rest => readMagnitude true rest
      | '+' :: rest => readMagnitude false rest
      | rest => readMagnitude false rest
    else some (none, c :: rest)
  | [] => some (none, [])

def readUnsigned (negative : Bool) (cs : List Char) : Option (Numeral × List Char) := do
  let (whole, cs) ← readWhole cs
  let (fraction, cs) ← readFraction cs
  let (exponent, cs) ← readExponent cs
  return (⟨negative, whole, fraction, exponent⟩, cs)

def read : List Char → Option (Numeral × List Char)
  | '-' :: cs => readUnsigned true cs
  | cs => readUnsigned false cs

end Numeral

end AnyFlow.Json
