import TreeMachine.Number.Binary64

/-!
# The shortest decimal of a floating point word

The digits of a finite word are the fewest that read back as the same word, and among those the
nearest to it. `FloatLayout` says how such digits are written out.
-/

namespace TreeMachine

/-- A positive decimal: `0.d₁d₂… × 10 ^ point`. -/
structure Decimal where
  digits : List Char
  point : Int
deriving Repr

namespace Shortest

def width (n : Nat) : Nat := (Nat.toDigits 10 n).length

def magnitude10 (num den : Nat) : Int :=
  if den ≤ num then (width (num / den) : Int) - 1
  else
    let w := width (den / num)
    if den ≤ num * Nat.pow 10 (w - 1) then -((w : Int) - 1) else -(w : Int)

/-- The interval of reals that round to a word of magnitude `m * 2 ^ e`, in units of `2 ^ (e - 2)`:
the word itself is `4 * m`. Its lower half is shorter at a power of two. -/
structure Interval where
  low : Nat
  mid : Nat
  high : Nat
  /-- The ends round to the word as well. -/
  closed : Bool

def intervalOf (m : Nat) (e : Int) : Interval where
  low := if m = Nat.pow 2 52 && Binary64.leastExponent < e then 4 * m - 1 else 4 * m - 2
  mid := 4 * m
  high := 4 * m + 2
  closed := m % 2 = 0

def Interval.contains (i : Interval) (x scale : Nat) : Bool :=
  if i.closed then i.low * scale ≤ x && x ≤ i.high * scale
  else i.low * scale < x && x < i.high * scale

/-- The nearest decimal with `n` digits that reads back, if there is one. `unit` over `scale` is the
value of one step of the interval's grid; `p` is the magnitude of the word. -/
def candidate? (i : Interval) (unit scale : Nat) (p : Int) (n : Nat) : Option Decimal :=
  -- the grid of `n` digits has steps of `10 ^ k`; everything is compared over one denominator
  let k : Int := p - (n - 1 : Nat)
  let step := if 0 ≤ k then Nat.pow 10 k.toNat * scale else scale
  let grain := if 0 ≤ k then unit else unit * Nat.pow 10 (-k).toNat
  let value := i.mid * grain
  let below := value / step
  let inBelow := i.contains (below * step) grain
  let inAbove := i.contains ((below + 1) * step) grain
  let rest := value % step
  let up := 2 * rest > step || (2 * rest = step && below % 2 = 1)
  let pick : Option Nat :=
    match inBelow, inAbove with
    | true, true => some (if up then below + 1 else below)
    | true, false => some below
    | false, true => some (below + 1)
    | false, false => none
  pick.map fun d =>
    let ds := Nat.toDigits 10 d
    { digits := (ds.reverse.dropWhile (· = '0')).reverse
      point := p + 1 + (ds.length - n : Nat) }

def search (i : Interval) (unit scale : Nat) (p : Int) : (fuel n : Nat) → Decimal
  | 0, _ => { digits := ['0'], point := 1 }
  | fuel + 1, n =>
    match candidate? i unit scale p n with
    | some d => d
    | none => search i unit scale p fuel (n + 1)

/-- The shortest decimal of a finite word other than zero; seventeen digits always suffice. -/
def ofWord (w : Binary64) : Decimal :=
  let (m, e) := w.parts
  let i := intervalOf m e
  let e := e - 2
  let unit := if 0 ≤ e then Nat.pow 2 e.toNat else 1
  let scale := if 0 ≤ e then 1 else Nat.pow 2 (-e).toNat
  search i unit scale (magnitude10 (i.mid * unit) scale) 17 1

end Shortest

structure FloatLayout where
  /-- The least power of ten written positionally. -/
  least : Int
  /-- The first power of ten written with an exponent. -/
  limit : Int
  exponentWidth : Nat
  infinite : String
  negativeInfinite : String
  notNumber : String

namespace FloatLayout

def padZeros (n : Nat) (s : String) : String :=
  "".pushn '0' (n - s.length) ++ s

def scientific (l : FloatLayout) (d : Decimal) : String :=
  let exponent := d.point - 1
  let head := String.ofList (d.digits.take 1)
  let tail := d.digits.drop 1
  let fraction := if tail.isEmpty then "" else "." ++ String.ofList tail
  let sign := if exponent < 0 then "-" else "+"
  head ++ fraction ++ "e" ++ sign ++ padZeros l.exponentWidth (toString exponent.natAbs)

def positional (d : Decimal) : String :=
  let n := d.digits.length
  if d.point ≤ 0 then
    "0." ++ "".pushn '0' (-d.point).toNat ++ String.ofList d.digits
  else
    let p := d.point.toNat
    if n ≤ p then String.ofList d.digits ++ "".pushn '0' (p - n)
    else String.ofList (d.digits.take p) ++ "." ++ String.ofList (d.digits.drop p)

def write (l : FloatLayout) (w : Binary64) : String :=
  if w.isNaN then l.notNumber
  else if w.isInfinite then (if w.isNegative then l.negativeInfinite else l.infinite)
  else
    let sign := if w.isNegative then "-" else ""
    if w.isZero then sign ++ "0"
    else
      let d := Shortest.ofWord w
      let exponent := d.point - 1
      sign ++ (if exponent < l.least || l.limit ≤ exponent then l.scientific d else positional d)

end FloatLayout

end TreeMachine
