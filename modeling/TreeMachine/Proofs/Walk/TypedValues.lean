import TreeMachine.Proofs.Host.Typed
import TreeMachine.Walk.Eval

/-!
# Conversions, operators and members of typed values

Conversions that the static types allow take a value of one type to a value of the other: implicit ones always
(`Walk.settles_convert`), explicit ones unless the value is null or of another type
(`Walk.settles_convertExplicitly`). Operators and members give values of the types that trees give them.
-/

open Option

namespace TreeMachine.Walk

open Exec (Settles Answers OfType)
open Heap Universe

variable {U : Universe} {F : Delegate → Signature → Prop} {w : Heap U F} {E : Abort → Prop} {v : Value}
  {t a b : Ty} {s : Option Ty}

/-! ## Numbers -/

theorem numeric_cases (hU : U.Declared) (ht : U.isNumeric t = true) (h : w.HasType v (some t)) :
    (t = .float64 ∧ ∃ x, v.datum = .float x) ∨
      ((t = .int32 ∨ t = .int64) ∧ v.type = some t ∧ ∃ n, v.datum = .int n) := by
  obtain ⟨p, rfl, hp⟩ := hU.eq_of_isNumeric ht
  obtain ⟨ty, d⟩ := v
  cases p with
  | bool => exact absurd rfl hp
  | int32 | int64 =>
    obtain ⟨hty, hd⟩ := (hasType_scalar_iff rfl).1 h
    cases d with
    | int n => exact .inr ⟨by simp [Primitive.type], hty, n, rfl⟩
    | _ => cases hd
  | float64 =>
    obtain ⟨hty, hd⟩ := (hasType_scalar_iff (U := U) (t := .float64) rfl).1 h
    cases d with
    | float x => exact .inl ⟨rfl, x, rfl⟩
    | _ => cases hd

theorem hasType_integral (ht : t = .int32 ∨ t = .int64) (n : Int64) : w.HasType (.integral U t n) (some t) := by
  rcases ht with rfl | rfl <;> exact (hasType_scalar_iff rfl).2 ⟨rfl, rfl⟩

/-! ## Conversions -/

theorem toPrimitive_isOf {q : Option Primitive} (hq : q ≠ some .bool) (hq' : q ≠ none) (v : Value) :
    (toPrimitive U v q).datum.isOf q = true ∧ ∀ p, q = some p → (toPrimitive U v q).type = some p.type := by
  unfold toPrimitive
  cases q with
  | none => exact absurd rfl hq'
  | some q =>
    cases q with
    | bool => exact absurd rfl hq
    | int32 | int64 | float64 =>
      refine ⟨?_, fun p hp => ?_⟩
      · dsimp only
        split <;> rfl
      · cases hp
        dsimp only
        split <;> rfl

/-- A scalar type has a representation, and is an enum or the builtin type of it. -/
theorem primitive_of_scalar (hU : U.Declared) (h : U.isScalar t = true) :
    ∃ p, U.primitive? t = some p ∧ (U.isEnum t = false → p ≠ .bool → t = p.type) := by
  unfold isScalar storage at h
  unfold primitive? isEnum
  cases hform : (U.decl t).form with
  | scalar p => exact ⟨p, rfl, fun _ hp => hU.eq_of_scalar hform hp⟩
  | enumeration p names => exact ⟨p, rfl, nofun⟩
  | _ => simp [hform] at h

/-- **Converting a number**: between numbers only, and implicitly only to a wider one. -/
theorem settles_convertScalar (hU : U.Declared) (hw : w.Typed) (explicit : Bool) (hb : U.isScalar b = true)
    (hp : U.primitive? a ≠ some .bool) (hq : U.primitive? b ≠ some .bool)
    (hwide : explicit = false → U.isWidening a b = true) :
    Settles E w (convertScalar U v a b explicit) (OfType (some b)) := by
  obtain ⟨q, hqb, hbuiltin⟩ := primitive_of_scalar hU hb
  have hqbool : q ≠ .bool := fun h => hq (h ▸ hqb)
  have hnum : ∀ x : Value, (toPrimitive U x (some q)).datum.isOf (some q) = true ∧
      (toPrimitive U x (some q)).type = some q.type := fun x => by
    obtain ⟨hd, hty⟩ := toPrimitive_isOf (U := U) (q := some q) (fun h => hqbool (some.inj h)) nofun x
    exact ⟨hd, hty q rfl⟩
  unfold convertScalar
  have hbool : (decide (U.primitive? a = some .bool) || decide (U.primitive? b = some .bool)) = false := by
    simp [hp, hq]
  dsimp only
  rw [hbool, if_neg Bool.false_ne_true, hqb]
  split
  · rename_i henum
    cases explicit with
    | false =>
      -- what widens is no enum
      have hw' := hwide rfl
      unfold isWidening at hw'
      unfold isEnum at henum
      split at hw' <;> simp_all
    | true =>
      refine .pure hw ((hasType_scalar_iff hb).2 ?_)
      rw [hqb]
      cases hbe : U.isEnum b with
      | true => exact ⟨rfl, (hnum _).1⟩
      | false =>
        refine ⟨?_, (hnum _).1⟩
        rw [hbuiltin hbe hqbool]
        exact (hnum _).2
  · rename_i henum
    simp only [Bool.or_eq_true, not_or, Bool.not_eq_true] at henum
    have hgo : (explicit || U.isWidening a b) = true := by
      cases explicit with
      | true => rfl
      | false => exact hwide rfl
    rw [hgo, if_pos rfl]
    refine .pure hw ((hasType_scalar_iff hb).2 ?_)
    rw [hqb]
    refine ⟨?_, (hnum _).1⟩
    rw [hbuiltin henum.2 hqbool]
    exact (hnum _).2

/-- **Implicit conversions** always succeed, and explicit ones do where an implicit one is allowed. -/
theorem settles_convertBetween (hU : U.Regular) (hw : w.Typed) (hv : w.HasType v (some a)) (hne : a ≠ b)
    (explicit : Bool) (h : U.convertsImplicitly a b = true) :
    Settles E w (convertBetween U v a b explicit) (OfType (some b)) := by
  unfold convertsImplicitly at h
  rw [if_neg hne] at h
  unfold convertBetween
  cases ha : U.isValue a with
  | true =>
    rw [ha, if_pos rfl, Bool.or_eq_true] at h
    rcases h with hwide | hbox
    · obtain ⟨⟨has, hbs⟩, ⟨hp, hq⟩, -⟩ := numbers_of_isWidening hwide
      rw [has, hbs, Bool.and_self, if_pos rfl]
      exact settles_convertScalar hU.declared hw explicit hbs hp hq fun _ => hwide
    · rw [isScalar_of_isValue (target_of_boxesTo hbox), Bool.and_false, if_neg Bool.false_ne_true, if_pos rfl, hbox,
        if_pos rfl]
      exact .nesting_bind hw (Exec.settles_makes (makes_box hU hw hv hbox))
  | false =>
    rw [ha, if_neg Bool.false_ne_true] at h
    rw [isScalar_of_isValue ha, Bool.false_and, if_neg Bool.false_ne_true, if_neg Bool.false_ne_true,
      hU.declared.isValue_of_assignable hne h, if_neg Bool.false_ne_true, h, if_pos rfl]
    exact .pure hw (hv.assignable hU h)

theorem settles_convert (hU : U.Regular) {t : Option Ty} (hw : w.Typed) (hv : w.HasType v s)
    (h : U.convertsImplicitlyOf s t = true) (explicit : Bool) : Settles E w (convert U v s t explicit) (OfType t) := by
  unfold convert
  by_cases heq : s = t
  · rw [if_pos heq]
    exact .pure hw (heq ▸ hv)
  · rw [if_neg heq]
    cases s with
    | none =>
      cases t with
      | none => exact absurd rfl heq
      | some b => cases h
    | some a =>
      cases t with
      | none => cases h
      | some b => exact settles_convertBetween hU hw hv (fun h => heq (h ▸ rfl)) explicit h

/-- A failure that types do not rule out, or an invalid cast. -/
def IsRuntimeOrCast (a : Abort) : Prop := a.isRuntime = true ∨ ∃ e : Error, a = .error e ∧ e.isCast = true

theorem settles_unbox (hU : U.Regular) (hw : w.Typed) (hv : w.HasType v (some a)) (ha : U.isValue a = false) :
    Settles IsRuntimeOrCast w (unbox v b) (OfType (some b)) := by
  unfold unbox
  split
  · exact .fail hw (.inl rfl)
  rename_i hnil
  have hn : v.datum ≠ .null := by simpa [Value.isNil] using hnil
  refine .get_bind ?_
  split
  · rename_i p hp
    split
    · rename_i hty
      refine .pure hw ?_
      obtain ⟨d, hr, -⟩ := ((hasType_reference hU ha).1 hv).resolve_left hn
      -- only a box has a payload
      cases hr with
      | box hk hnom hval =>
        obtain ⟨p', hp', hty', hpd⟩ := hw.payload (.box hk hnom hval) hval
        obtain rfl := some.inj (hp.symm.trans hp')
        obtain rfl := some.inj (hty.symm.trans hty')
        exact hpd
      | _ => cases hp
    · exact .fail hw (.inr ⟨_, rfl, rfl⟩)
  · exact .fail hw (.inr ⟨_, rfl, rfl⟩)

theorem settles_checkReference (hU : U.Regular) (hw : w.Typed) (hv : w.HasType v (some a))
    (ha : U.isValue a = false) (hb : U.isValue b = false) :
    Settles IsRuntimeOrCast w (Exec.checkReference U v (some b)) fun w' _ => w' = w ∧ w.HasType v (some b) := by
  refine .get_bind ?_
  rcases (hasType_reference hU ha).1 hv with hnull | ⟨d, hr, -⟩
  · rw [Value.isNil, decide_eq_true hnull]
    exact .pure hw ⟨rfl, hasType_null hU hnull hb⟩
  · rw [Value.isNil, decide_eq_false hr.ne_null]
    obtain ⟨r, hres⟩ := isSome_iff_exists.1 (hr.isSome_isInstance (t := b))
    have hcheck := hr.isInstance_iff hU (t := b)
    rw [hres] at hcheck
    show Settles IsRuntimeOrCast w (w.store.accept v (some b) (w.store.isInstance U v (some b))) _
    rw [hres]
    cases r with
    | true =>
      exact .pure hw ⟨rfl, (hasType_reference hU hb).2 (.inr ⟨d, hr, hcheck.1 rfl⟩)⟩
    | false => exact .fail hw (.inr ⟨_, rfl, rfl⟩)

/-- **Explicit conversions** fail on null, and where the value is of another type. -/
theorem settles_convertExplicitly (hU : U.Regular) {t : Option Ty} (hw : w.Typed) (hv : w.HasType v s)
    (h : U.convertsExplicitlyOf s t = true) : Settles IsRuntimeOrCast w (convert U v s t true) (OfType t) := by
  cases himp : U.convertsImplicitlyOf s t with
  | true => exact settles_convert hU hw hv himp true
  | false =>
    cases s with
    | none => cases t <;> simp_all [convertsExplicitlyOf, convertsImplicitlyOf]
    | some a =>
      cases t with
      | none => cases h
      | some b =>
        have himp : U.convertsImplicitly a b = false := himp
        have hne : a ≠ b := by
          rintro rfl
          simp [convertsImplicitly] at himp
        have h : U.convertsExplicitly a b = true := h
        have hrest := h
        unfold convertsExplicitly at hrest
        rw [himp, if_neg Bool.false_ne_true] at hrest
        unfold convert
        rw [if_neg fun h => hne (some.inj h)]
        show Settles IsRuntimeOrCast w (convertBetween U v a b true) (OfType (some b))
        -- nothing is boxed or unboxed to a value type
        have hbox : U.isValue a = true → U.boxesTo b a = false := fun ha => by
          cases hba : U.boxesTo b a with
          | false => rfl
          | true => rw [target_of_boxesTo hba] at ha; cases ha
        unfold convertBetween
        cases ha : U.isValue a with
        | true =>
          have hab : U.isScalar a = true ∧ U.isScalar b = true ∧ (U.primitive? a).any Primitive.isNumeric = true ∧
              (U.primitive? b).any Primitive.isNumeric = true := by
            have hbox := hbox ha
            unfold isValue at ha
            unfold isScalar
            cases hsa : U.storage a <;> cases hsb : U.storage b <;> simp_all [Storage.isValue]
          obtain ⟨has, hbs, hp, hq⟩ := hab
          rw [has, hbs, Bool.and_self, if_pos rfl]
          exact settles_convertScalar hU.declared hw true hbs ((any_isNumeric_iff has).1 hp)
            ((any_isNumeric_iff hbs).1 hq) fun h => by cases h
        | false =>
          rw [isScalar_of_isValue ha, Bool.false_and, if_neg Bool.false_ne_true, if_neg Bool.false_ne_true]
          cases hb : U.isValue b with
          | true =>
            have hba : U.boxesTo b a = true := by
              unfold isValue at ha hb
              cases hsa : U.storage a <;> cases hsb : U.storage b <;> simp_all [Storage.isValue]
            rw [if_pos rfl, hba, Bool.and_self, if_pos rfl]
            exact settles_unbox hU hw hv ha
          | false =>
            rw [if_neg Bool.false_ne_true]
            have hna : U.assignable a b = false := by
              unfold convertsImplicitly at himp
              rw [if_neg hne, ha, if_neg Bool.false_ne_true] at himp
              exact himp
            rw [hna, if_neg Bool.false_ne_true, h, Bool.and_self, if_pos rfl]
            refine (settles_checkReference hU hw hv ha hb).bind ?_
            rintro w' _ - hw' ⟨rfl, hvb⟩
            exact .pure hw' hvb

/-! ## Operators -/

theorem answers_arithmetic (hU : U.Declared) {a b : Value} (hw : w.Typed) (ht : U.isNumeric t = true)
    (ha : w.HasType a (some t)) (hb : w.HasType b (some t)) (op : BinaryOp) :
    Answers w (arithmetic U op a b) (OfType (some t)) := by
  rcases numeric_cases hU ht ha with ⟨rfl, x, hx⟩ | ⟨hint, hty, n, hn⟩
  · unfold arithmetic
    rw [hx]
    exact .pure hw (hasType_float _)
  · rcases numeric_cases hU ht hb with ⟨rfl, -⟩ | ⟨-, -, m, hm⟩
    · rcases hint with h | h <;> cases h
    have hinteger : ∀ x, Answers w (integer U (some t) x) (OfType (some t)) := fun x =>
      .pure hw (hasType_integral hint x)
    unfold arithmetic
    rw [hn, hm, hty]
    show Answers w (intOperator U (some t) op _ _) _
    unfold intOperator
    split
    · exact hinteger _
    · exact hinteger _
    · exact hinteger _
    · split
      · exact .fail hw rfl
      · split
        · exact hinteger _
        · exact hinteger _

theorem answers_operator (hU : U.Declared) {op : BinaryOp} {l r : Ty} {a b : Value} (hw : w.Typed)
    (hop : op.isLogical = false) (ht : Build.operatorType? U op l r = some t) (ha : w.HasType a (some l))
    (hb : w.HasType b (some r)) : Answers w (operator U op (some l) (some r) a b) (OfType (some t)) := by
  unfold Build.operatorType? at ht
  rw [hop, if_neg Bool.false_ne_true] at ht
  unfold operator
  split
  · -- concatenation, since texts are not numbers
    rename_i hstring
    simp only [Bool.and_eq_true, decide_eq_true_eq, some.injEq] at hstring
    obtain ⟨rfl, rfl⟩ := hstring
    have hr : r = .string := by
      by_contra hr
      have hne : ¬Ty.string = r := fun h => hr h.symm
      simp [hr, BinaryOp.isArithmetic, hne] at ht
    subst hr
    cases ht
    exact .pure hw (hasType_string _)
  rename_i hstring
  have hconcat : ¬(decide (op = .add) && decide (l = .string) && decide (r = .string)) = true := fun h => by
    simp only [Bool.and_eq_true, decide_eq_true_eq] at h
    exact hstring (by simp [h.1.1, h.1.2])
  rw [if_neg hconcat] at ht
  split
  · rename_i harith
    rw [if_pos harith] at ht
    split at ht
    · rename_i hlr
      simp only [Bool.and_eq_true, decide_eq_true_eq] at hlr
      obtain ⟨rfl, hnum⟩ := hlr
      cases ht
      exact answers_arithmetic hU hw hnum ha hb op
    · cases ht
  rename_i harith
  rw [if_neg harith] at ht
  -- all other operators compare
  have hbool : t = .bool := by
    split at ht
    · split at ht
      · exact (some.inj ht).symm
      · cases ht
    · split at ht
      · exact (some.inj ht).symm
      · cases ht
  subst hbool
  split
  · exact .pure hw (hasType_bool _)
  · split
    · refine Settles.bind (Exec.settles_equal hw a b) ?_
      rintro _ _ - - rfl
      exact .pure hw (hasType_bool _)
    · exact .pure hw (hasType_bool _)

theorem answers_unaryOperator (hU : U.Declared) {op : UnaryOp} (hw : w.Typed) (hv : w.HasType v (some t))
    (hnot : op = .not → t = .bool) (hneg : op = .negate → U.isNumeric t = true) :
    Answers w (unaryOperator U op v) (OfType (some t)) := by
  cases op with
  | not =>
    obtain rfl := hnot rfl
    exact .pure hw (hasType_bool _)
  | negate =>
    rcases numeric_cases hU (hneg rfl) hv with ⟨rfl, x, hx⟩ | ⟨hint, hty, n, hn⟩
    · unfold unaryOperator
      rw [hx]
      exact .pure hw (hasType_float _)
    · unfold unaryOperator
      rw [hn, hty]
      exact .pure hw (hasType_integral hint _)

end TreeMachine.Walk
