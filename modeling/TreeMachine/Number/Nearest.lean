import TreeMachine.Number.Binary64

/-!
# The nearest word to a decimal number

A decimal number is read as the word nearest to it; of two that are equally near, the one with an
even significand. The search is exact: it works on the fraction of two natural numbers.
-/

namespace TreeMachine.Binary64

/-- The number of halvings, or doublings if negative, after which a positive fraction `num / den` has
an integer part of at most 53 bits, and of 53 bits unless the fraction is too small for that. -/
def scaleOf (num den : Nat) : Int :=
  let e := max ((num.log2 : Int) - den.log2 - 53) leastExponent
  if Nat.pow 2 53 ≤ num * Nat.pow 2 (-e).toNat / (den * Nat.pow 2 e.toNat) then e + 1 else e

def roundRatio (num den : Nat) : Nat :=
  let q := num / den
  let twice := 2 * (num % den)
  if den < twice || (twice = den && q % 2 = 1) then q + 1 else q

def magnitudeOfRatio (num den : Nat) : Nat :=
  let e := scaleOf num den
  min infinity
    (magnitudeOfParts (roundRatio (num * Nat.pow 2 (-e).toNat) (den * Nat.pow 2 e.toNat)) e)

/-- The magnitude of the word nearest to `m * 10 ^ e`, or infinity. Exponents far out of range are
told without computing the power. -/
def magnitudeOfDecimal (m : Nat) (e : Int) : Nat :=
  if m = 0 || e + m.log2 / 3 < -400 then 0
  else if 400 < e then infinity
  else magnitudeOfRatio (m * Nat.pow 10 e.toNat) (Nat.pow 10 (-e).toNat)

def ofDecimal? (negative : Bool) (m : Nat) (e : Int) : Option Binary64 :=
  let n := magnitudeOfDecimal m e
  if n = infinity then none
  else some (if negative then negate n.toUInt64 else n.toUInt64)

end TreeMachine.Binary64
