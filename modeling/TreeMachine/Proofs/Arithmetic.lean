import Mathlib
import TreeMachine.Machine.Number
import TreeMachine.Walk.Operators

/-!
# Arithmetic of the integer types

Integers of both widths are held in 64 bits, and every operation is carried out on 64 bits and wrapped. The result is
the mathematical one up to a multiple of `2 ^ w`, brought into the range of the width `w` (`Int.bmod`): wrapping to a
word first and to the width then is wrapping to the width (`toInt_wrapTo`, `Int.bmod_bmod_of_dvd`).
-/

namespace TreeMachine

open Machine Value

def Primitive.bits : Primitive → Nat
  | .int32 => 32
  | _ => 64

namespace Arithmetic

def operator : Arithmetic → BinaryOp
  | add => .add
  | sub => .sub
  | mul => .mul
  | div => .div
  | mod => .mod

/-- The operation on whole numbers; a quotient is truncated toward zero. -/
def exact : Arithmetic → Int → Int → Int
  | add, x, y => x + y
  | sub, x, y => x - y
  | mul, x, y => x * y
  | div, x, y => x.tdiv y
  | mod, x, y => x.tmod y

def divides : Arithmetic → Bool
  | div | mod => true
  | _ => false

end Arithmetic

theorem toInt_wrapTo (p : Primitive) (n : Int64) : (wrapTo (some p) n).toInt = n.toInt.bmod (2 ^ p.bits) := by
  cases p with
  | int32 =>
    show n.toInt32.toInt64.toInt = _
    rw [Int32.toInt_toInt64, Int64.toInt_toInt32]
    rfl
  | _ => exact n.toInt_bmod.symm

theorem bmod_word (p : Primitive) (n : Int) : (n.bmod (2 ^ 64)).bmod (2 ^ p.bits) = n.bmod (2 ^ p.bits) :=
  Int.bmod_bmod_of_dvd (Nat.pow_dvd_pow 2 (by cases p <;> decide))

variable {p : Primitive} {x y : Int64}

theorem range_of_wrapTo (h : wrapTo (some p) x = x) :
    -(2 ^ (p.bits - 1) : Int) ≤ x.toInt ∧ x.toInt < 2 ^ (p.bits - 1) := by
  have hx := toInt_wrapTo p x
  rw [h] at hx
  have hpos : 0 < 2 ^ p.bits := Nat.two_pow_pos _
  have hle := Int.le_bmod (x := x.toInt) hpos
  have hlt := Int.bmod_lt (x := x.toInt) hpos
  rw [← hx] at hle hlt
  cases p <;> simp only [Primitive.bits] at hle hlt ⊢ <;> omega

theorem bmod_of_range {n : Int} (h : -(2 ^ (p.bits - 1) : Int) ≤ n) (h' : n < 2 ^ (p.bits - 1)) :
    n.bmod (2 ^ p.bits) = n := by
  apply Int.bmod_eq_of_le <;> cases p <;> simp only [Primitive.bits] at h h' ⊢ <;> omega

theorem intArithmetic_eq (op : Arithmetic) (p : Primitive) (h : ¬(op.divides = true ∧ y = 0)) :
    ∃ n, intArithmetic op x y = .ok n ∧
      (wrapTo (some p) n).toInt = (op.exact x.toInt y.toInt).bmod (2 ^ p.bits) := by
  cases op with
  | add => exact ⟨x + y, rfl, by rw [toInt_wrapTo, Int64.toInt_add, bmod_word]; rfl⟩
  | sub => exact ⟨x - y, rfl, by rw [toInt_wrapTo, Int64.toInt_sub, bmod_word]; rfl⟩
  | mul => exact ⟨x * y, rfl, by rw [toInt_wrapTo, Int64.toInt_mul, bmod_word]; rfl⟩
  | div =>
    have hy : y ≠ 0 := fun hy => h ⟨rfl, hy⟩
    exact ⟨x / y, if_neg hy, by rw [toInt_wrapTo, Int64.toInt_div, bmod_word]; rfl⟩
  | mod =>
    have hy : y ≠ 0 := fun hy => h ⟨rfl, hy⟩
    exact ⟨x % y, if_neg hy, by rw [toInt_wrapTo, Int64.toInt_mod]; rfl⟩

theorem tmod_range (x y : Int) : (0 ≤ x → 0 ≤ x.tmod y ∧ x.tmod y ≤ x) ∧ (x ≤ 0 → x ≤ x.tmod y ∧ x.tmod y ≤ 0) := by
  have habs := Int.natAbs_tmod x y
  have hle := Nat.mod_le x.natAbs y.natAbs
  constructor
  · intro h
    have := Int.tmod_nonneg y h
    omega
  · intro h
    have := Int.tmod_nonneg y (Int.neg_nonneg_of_nonpos h)
    rw [Int.neg_tmod] at this
    omega

theorem tmod_bmod (hx : wrapTo (some p) x = x) (y : Int) : (x.toInt.tmod y).bmod (2 ^ p.bits) = x.toInt.tmod y := by
  obtain ⟨hle, hlt⟩ := range_of_wrapTo hx
  have hmod := tmod_range x.toInt y
  apply bmod_of_range <;> omega

theorem quotient_remainder (hx : wrapTo (some p) x = x) {q r : Int64}
    (hq : q.toInt = (x.toInt.tdiv y.toInt).bmod (2 ^ p.bits))
      (hr : r.toInt = (x.toInt.tmod y.toInt).bmod (2 ^ p.bits)) :
    (0 ≤ x.toInt → 0 ≤ r.toInt) ∧ (x.toInt ≤ 0 → r.toInt ≤ 0) ∧
      ((2 ^ p.bits : Nat) : Int) ∣ q.toInt * y.toInt + r.toInt - x.toInt ∧
      (x.toInt = -2 ^ (p.bits - 1) → y.toInt = -1 → q = x ∧ r = 0) := by
  rw [tmod_bmod hx] at hr
  have hsign := tmod_range x.toInt y.toInt
  refine ⟨fun h => by omega, fun h => by omega, ?_, fun hmin hone => ⟨?_, ?_⟩⟩
  · -- the quotient is off by a multiple of the modulus
    obtain ⟨c, hc⟩ := Int.dvd_bmod_sub_self (x := x.toInt.tdiv y.toInt) (m := 2 ^ p.bits)
    have hmake := Int.mul_tdiv_add_tmod x.toInt y.toInt
    have hq' : q.toInt = x.toInt.tdiv y.toInt + (2 ^ p.bits : Nat) * c := by
      rw [hq]
      omega
    refine ⟨c * y.toInt, ?_⟩
    rw [hr, hq', Int.add_mul, Int.mul_comm (x.toInt.tdiv y.toInt), Int.mul_assoc]
    omega
  · rw [← Int64.toInt_inj, hq, hmin, hone]
    cases p <;> decide
  · rw [← Int64.toInt_inj, hr, hone, Int.tmod_neg, Int.tmod_one]
    rfl

section

variable {U : Universe} {t u : Ty} (ht : U.primitive? t = some p) (hu : U.primitive? u = some p)
  (hx : wrapTo (some p) x = x) (hy : wrapTo (some p) y = y)

include ht hx in
theorem asInt_integer : (⟨some t, .int x⟩ : Value).asInt U = x := by
  show wrapTo (U.primitive? t) x.toUInt64.toInt64 = x
  rw [ht, Int64.toInt64_toUInt64, hx]

theorem walk_arithmetic_eq (op : Arithmetic) (a b : Value) (n m : Int64) (ha : a.datum = .int n)
    (hb : b.datum = .int m) : Walk.arithmetic U op.operator a b = arithmetic U op a b := by
  funext s
  unfold Walk.arithmetic arithmetic
  simp only [ha, hb]
  cases op with
  | div | mod =>
    simp only [Walk.intOperator, intArithmetic, Arithmetic.operator]
    split <;> rfl
  | _ => rfl

include ht hu hx hy

theorem arithmetic_eq (op : Arithmetic) (h : ¬(op.divides = true ∧ y = 0)) (s : Store) :
    ∃ r, arithmetic U op ⟨some t, .int x⟩ ⟨some u, .int y⟩ s = .ok ⟨some t, .int r⟩ s ∧
      wrapTo (some p) r = r ∧ r.toInt = (op.exact x.toInt y.toInt).bmod (2 ^ p.bits) := by
  obtain ⟨n, hn, hexact⟩ := intArithmetic_eq (x := x) op p h
  refine ⟨wrapTo (some p) n, ?_, wrapTo_wrapTo _ n, hexact⟩
  show (Exec.ofExcept (intArithmetic op (asInt U _) (asInt U _)) >>= integer U (some t)) s = _
  rw [asInt_integer ht hx, asInt_integer hu hy, hn]
  show EStateM.Result.ok (integral U t n) s = _
  rw [integral, ht]

/-- **Integers wrap to their width**, and the two executors compute alike. -/
theorem integer_arithmetic (s : Store) :
    (∀ op : Arithmetic, Walk.arithmetic U op.operator ⟨some t, .int x⟩ ⟨some u, .int y⟩ s =
      arithmetic U op ⟨some t, .int x⟩ ⟨some u, .int y⟩ s) ∧
    Walk.unaryOperator U .negate ⟨some t, .int x⟩ s = negate U ⟨some t, .int x⟩ s ∧
    (∀ op : Arithmetic, op.divides = true → y = 0 →
      arithmetic U op ⟨some t, .int x⟩ ⟨some u, .int y⟩ s = Exec.fail .divideByZero s) ∧
    (∀ op : Arithmetic, ¬(op.divides = true ∧ y = 0) →
      ∃ r, arithmetic U op ⟨some t, .int x⟩ ⟨some u, .int y⟩ s = .ok ⟨some t, .int r⟩ s ∧
        wrapTo (some p) r = r ∧ r.toInt = (op.exact x.toInt y.toInt).bmod (2 ^ p.bits)) ∧
    (∃ r, negate U ⟨some t, .int x⟩ s = .ok ⟨some t, .int r⟩ s ∧
      wrapTo (some p) r = r ∧ r.toInt = (-x.toInt).bmod (2 ^ p.bits)) ∧
    (y ≠ 0 → ∃ q r, arithmetic U .div ⟨some t, .int x⟩ ⟨some u, .int y⟩ s = .ok ⟨some t, .int q⟩ s ∧
      arithmetic U .mod ⟨some t, .int x⟩ ⟨some u, .int y⟩ s = .ok ⟨some t, .int r⟩ s ∧
      (0 ≤ x.toInt → 0 ≤ r.toInt) ∧ (x.toInt ≤ 0 → r.toInt ≤ 0) ∧
      ((2 ^ p.bits : Nat) : Int) ∣ q.toInt * y.toInt + r.toInt - x.toInt ∧
      (x.toInt = -2 ^ (p.bits - 1) → y.toInt = -1 → q = x ∧ r = 0)) := by
  refine ⟨fun op => by rw [walk_arithmetic_eq op _ _ x y rfl rfl], rfl, fun op hop hzero => ?_,
    fun op h => arithmetic_eq ht hu hx hy op h s, ⟨wrapTo (some p) (-x), ?_, wrapTo_wrapTo _ _, ?_⟩,
    fun h => ?_⟩
  · subst hzero
    show (Exec.ofExcept (intArithmetic op (asInt U _) (asInt U _)) >>= _) s = _
    rw [asInt_integer hu hy]
    cases op <;> first | rfl | cases hop
  · show integer U (some t) (-asInt U _) s = _
    rw [asInt_integer ht hx]
    show EStateM.Result.ok (integral U t (-x)) s = _
    rw [integral, ht]
  · rw [toInt_wrapTo, Int64.toInt_neg, bmod_word]
  · obtain ⟨q, hq, -, hqval⟩ := arithmetic_eq ht hu hx hy .div (fun h' => h h'.2) s
    obtain ⟨r, hr, -, hrval⟩ := arithmetic_eq ht hu hx hy .mod (fun h' => h h'.2) s
    exact ⟨q, r, hq, hr, quotient_remainder hx hqval hrval⟩

end

/-- The smallest 32-bit number is its own negation and its own quotient by minus one. -/
theorem integer_arithmetic_min :
    wrapTo (some .int32) (-2147483648) = -2147483648 ∧
      Walk.arithmetic {} .div ⟨some .int32, .int (-2147483648)⟩ ⟨some .int32, .int (-1)⟩ {} =
        arithmetic {} .div ⟨some .int32, .int (-2147483648)⟩ ⟨some .int32, .int (-1)⟩ {} ∧
      ∀ op ∈ [Arithmetic.div, .mod], arithmetic {} op ⟨some .int32, .int (-2147483648)⟩ ⟨some .int32, .int (-1)⟩ {} =
        .ok ⟨some .int32, .int (if op = .div then -2147483648 else 0)⟩ {} := by
  have h := integer_arithmetic (U := {}) (t := .int32) (u := .int32) (x := -2147483648) (y := -1) (p := .int32) rfl rfl
    (by decide) (by decide) {}
  obtain ⟨q, r, hq, hr, -, -, -, hmin⟩ := h.2.2.2.2.2 (by decide)
  obtain ⟨rfl, rfl⟩ := hmin (by decide) (by decide)
  exact ⟨by decide, h.1 .div, by simpa using ⟨hq, hr⟩⟩

end TreeMachine
