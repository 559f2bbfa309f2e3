/-!
# Binary floating point words

A 64-bit word read as a double-precision number: its parts, its order, the remainder, and the
conversions to and from integers. Comparison is defined on the words themselves, so it can be
reasoned about; the four basic operations go through the machine's arithmetic.
-/

namespace TreeMachine

abbrev Binary64 := UInt64

namespace Binary64

def isNegative (w : Binary64) : Bool := w >>> 63 != 0

def magnitude (w : Binary64) : Nat := (w &&& 0x7fffffffffffffff).toNat

def infinity : Nat := 0x7ff0000000000000

def isNaN (w : Binary64) : Bool := infinity < w.magnitude

def isInfinite (w : Binary64) : Bool := w.magnitude = infinity

def isZero (w : Binary64) : Bool := w.magnitude = 0

/-- The word that stands for all results that are not a number. -/
def nan : Binary64 := 0x7ff8000000000000

/-- Words that are numbers, in the order of the numbers; both zeros have key zero. -/
def key (w : Binary64) : Int := if w.isNegative then -w.magnitude else w.magnitude

/-- Numeric equality: not a number equals nothing, and the two zeros are equal. -/
def equal (a b : Binary64) : Bool := !a.isNaN && !b.isNaN && a.key = b.key

def less (a b : Binary64) : Bool := !a.isNaN && !b.isNaN && a.key < b.key

def lessEqual (a b : Binary64) : Bool := !a.isNaN && !b.isNaN && a.key ≤ b.key

/-- Numeric equality in which everything that is not a number counts as one value. -/
def same (a b : Binary64) : Bool := a.equal b || (a.isNaN && b.isNaN)

/-- A total order in which everything that is not a number is one value below all numbers. -/
def compare (a b : Binary64) : Ordering :=
  match a.isNaN, b.isNaN with
  | true, true => .eq
  | true, false => .lt
  | false, true => .gt
  | false, false => if a.key < b.key then .lt else if a.key = b.key then .eq else .gt

/-! ### Arithmetic -/

def negate (w : Binary64) : Binary64 := w ^^^ 0x8000000000000000

def add (a b : Binary64) : Binary64 := (Float.ofBits a + Float.ofBits b).toBits

def sub (a b : Binary64) : Binary64 := (Float.ofBits a - Float.ofBits b).toBits

def mul (a b : Binary64) : Binary64 := (Float.ofBits a * Float.ofBits b).toBits

def div (a b : Binary64) : Binary64 := (Float.ofBits a / Float.ofBits b).toBits

/-- The least exponent of a word: subnormal numbers are multiples of `2 ^ leastExponent`. -/
def leastExponent : Int := -1074

/-- The significand `m` and exponent `e` of a finite word of magnitude `m * 2 ^ e`. -/
def parts (w : Binary64) : Nat × Int :=
  let exponent := w.magnitude / Nat.pow 2 52
  let fraction := w.magnitude % Nat.pow 2 52
  if exponent = 0 then (fraction, leastExponent)
  else (fraction + Nat.pow 2 52, leastExponent + (exponent - 1 : Nat))

def magnitudeOfParts (m : Nat) (e : Int) : Nat :=
  if m = 0 then 0
  else
    let shift := 52 - m.log2
    let steps := (e - leastExponent).toNat
    if shift ≤ steps then (steps - shift) * Nat.pow 2 52 + m * Nat.pow 2 shift else m * Nat.pow 2 steps

/-- The remainder of division with the quotient truncated toward zero; it is exact and has the sign
of the dividend. -/
def mod (a b : Binary64) : Binary64 :=
  if a.isNaN || b.isNaN || a.isInfinite || b.isZero then nan
  else if b.isInfinite then a
  else
    let (m, e) := a.parts
    let (n, f) := b.parts
    let low := min e f
    let r := (m * Nat.pow 2 (e - low).toNat) % (n * Nat.pow 2 (f - low).toNat)
    let word := (magnitudeOfParts r low).toUInt64
    if a.isNegative then word ||| 0x8000000000000000 else word

/-! ### Integers -/

def ofInt64 (n : Int64) : Binary64 := n.toFloat.toBits

def truncate (w : Binary64) : Int :=
  let (m, e) := w.parts
  let n : Nat := if 0 ≤ e then m * Nat.pow 2 e.toNat else m / Nat.pow 2 (-e).toNat
  if w.isNegative then -n else n

/-- The integer part as a 64-bit integer; what has none of that width gives the least one. -/
def toInt64 (w : Binary64) : Int64 :=
  if w.isNaN || w.isInfinite then Int64.minValue
  else
    let n := w.truncate
    if Int64.minValue.toInt ≤ n && n ≤ Int64.maxValue.toInt then Int64.ofInt n else Int64.minValue

end Binary64

end TreeMachine
