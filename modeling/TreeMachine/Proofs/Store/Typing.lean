import TreeMachine.Proofs.Store.Heap

/-!
# The values of a type

What `Heap.HasType` says of a value, by the storage of the type: a scalar is held in place, a struct is the
location of its storage, and a reference is null or refers to something whose dynamic type is seen at the
type (`Heap.hasType_reference`). So upcasts keep a value of its type (`Heap.HasType.assignable`), and casts
find out whether it is of another one (`Heap.Refers.isInstance_iff`).
-/

open Option

namespace TreeMachine

open Universe Store

def Datum.isOf : Option Primitive → Datum → Bool
  | some .bool, .bool _ => true
  | some .float64, .float _ => true
  | some .int32, .int _ | some .int64, .int _ => true
  | _, _ => false

namespace Universe

variable {U : Universe} {t : Ty}

theorem isValue_of_isScalar (h : U.isScalar t = true) : U.isValue t = true := by
  simp only [isScalar, decide_eq_true_eq] at h
  simp [isValue, h, Storage.isValue]

theorem isValue_of_isAggregate (h : U.isAggregate t = true) : U.isValue t = true := by
  simp only [isAggregate, decide_eq_true_eq] at h
  simp [isValue, h, Storage.isValue]

theorem scalar_or_aggregate (h : U.isValue t = true) : U.isScalar t = true ∨ U.isAggregate t = true := by
  unfold isValue at h
  unfold isScalar isAggregate
  cases hs : U.storage t <;> simp_all [Storage.isValue]

theorem isInterface_of_isValue (h : U.isValue t = true) : U.isInterface t = false := by
  unfold isValue at h
  unfold isInterface
  cases hs : U.storage t <;> simp_all [Storage.isValue]

theorem Declared.knows_of_aggregate (hU : U.Declared) (h : U.isAggregate t = true) : U.Knows t := by
  rcases hU.traced_or t with ⟨hk, -⟩ | hd
  · exact hk
  · rw [isAggregate, storage, hd] at h
    cases h

theorem Declared.eq_declared_of_aggregate (hU : U.Declared) (h : U.isAggregate t = true) : ∃ i, t = .declared i := by
  have hshape := (hU.allTraced t (hU.knows_of_aggregate h)).shape
  unfold TypeDecl.Shaped at hshape
  unfold isAggregate storage at h
  cases hform : (U.decl t).form with
  | struct =>
    simp only [hform] at hshape
    exact hshape.1
  | _ => simp [hform] at h

theorem Declared.layout_of_aggregate (hU : U.Declared) (h : U.isAggregate t = true) :
    U.layout t = (U.decl t).fields := by
  have hv := isValue_of_isAggregate h
  have henum : U.isEnum t = false := by
    unfold isAggregate storage at h
    unfold isEnum
    cases hform : (U.decl t).form <;> simp_all
  rw [layout_eq, TypeDecl.layout, hU.lineage_of_value (hU.knows_of_aggregate h) hv, henum]
  rfl

end Universe

theorem Store.isOf_scalar_iff {U : Universe} {s : Store} {v : Value} {t : Ty} (hs : U.isScalar t = true) :
    s.isOf U v t = some true ↔ v.type = some t ∧ v.datum.isOf (U.primitive? t) = true := by
  unfold isOf Datum.isOf
  rw [show U.storage t = .scalar from of_decide_eq_true hs]
  cases U.primitive? t with
  | none => simp
  | some p => cases p <;> cases v.datum <;> simp

namespace Heap

variable {U : Universe} {F : Delegate → Signature → Prop} {w : Heap U F} {v : Value} {t : Ty}

/-! ## Scalars and structs -/

theorem hasType_scalar (hs : U.isScalar t = true) :
    w.HasType v (some t) ↔ w.Proper v ∧ v.type = some t ∧ v.datum.isOf (U.primitive? t) = true := by
  refine ⟨fun h => ⟨h.1, (isOf_scalar_iff hs).1 h.2.1⟩,
    fun h => ⟨h.1, (isOf_scalar_iff hs).2 h.2, fun hv => ?_⟩⟩
  rw [isValue_of_isScalar hs] at hv
  cases hv

theorem proper_of_isOf {p : Option Primitive} (h : v.datum.isOf p = true) : w.Proper v := by
  unfold Proper
  unfold Datum.isOf at h
  split at h <;> first | (rename_i hd; rw [hd]; trivial) | cases h

theorem hasType_scalar_iff (hs : U.isScalar t = true) :
    w.HasType v (some t) ↔ v.type = some t ∧ v.datum.isOf (U.primitive? t) = true := by
  rw [hasType_scalar hs]
  exact ⟨fun h => h.2, fun h => ⟨proper_of_isOf h.2, h⟩⟩

theorem hasType_aggregate (hs : U.isAggregate t = true) :
    w.HasType v (some t) ↔ ∃ loc, v = ⟨some t, .aggregate loc⟩ ∧ w.known (.aggregate loc) ∧
      w.store.nominal (.aggregate loc) = some t := by
  have hstorage : U.storage t = .aggregate := of_decide_eq_true hs
  constructor
  · rintro ⟨hp, hof, -⟩
    obtain ⟨ty, d⟩ := v
    unfold isOf at hof
    rw [hstorage] at hof
    cases d with
    | aggregate loc =>
      obtain ⟨hk, u, hu, hty, -⟩ := hp
      have ht : w.store.dynamicType ⟨ty, .aggregate loc⟩ = some t := by simpa using hof
      obtain rfl : u = t := some.inj (hu.symm.trans ht)
      exact ⟨loc, by rw [show ty = some u from hty], hk, hu⟩
    | _ => simp at hof
  · rintro ⟨loc, rfl, hk, hn⟩
    refine ⟨⟨hk, t, hn, rfl, hs⟩, ?_, fun hv => ?_⟩
    · unfold isOf
      rw [hstorage]
      show some (decide (w.store.nominal (.aggregate loc) = some t)) = some true
      rw [hn]
      simp
    · rw [isValue_of_isAggregate hs] at hv
      cases hv

theorem HasType.type_of_value (h : w.HasType v (some t)) (hv : U.isValue t = true) :
    v.type = some t ∧ v.datum ≠ .null ∧ w.store.dynamicType v = some t := by
  rcases scalar_or_aggregate hv with hs | hs
  · obtain ⟨hty, hd⟩ := (hasType_scalar_iff hs).1 h
    refine ⟨hty, fun hnull => ?_, ?_⟩
    · rw [hnull] at hd
      unfold Datum.isOf at hd
      split at hd <;> simp_all
    · obtain ⟨ty, d⟩ := v
      unfold Datum.isOf at hd
      split at hd <;> first | (rename_i heq; rw [show d = _ from heq]; exact hty) | cases hd
  · obtain ⟨loc, rfl, -, hn⟩ := (hasType_aggregate hs).1 h
    exact ⟨rfl, nofun, hn⟩

theorem hasType_bool (b : Bool) : w.HasType (.ofBool b) (some .bool) :=
  (hasType_scalar_iff rfl).2 ⟨rfl, rfl⟩

theorem hasType_int32 (n : Int64) : w.HasType (.ofInt32 n) (some .int32) :=
  (hasType_scalar_iff rfl).2 ⟨rfl, rfl⟩

theorem hasType_float (x : Binary64) : w.HasType (.ofFloat x) (some .float64) :=
  (hasType_scalar_iff rfl).2 ⟨rfl, rfl⟩

/-! ## References -/

/-- The value is a reference that is not null, to something of dynamic type `d`. -/
inductive Refers (w : Heap U F) : Value → Ty → Prop
  | text (s : String) : Refers w ⟨some .string, .text s⟩ .string
  | object {ty : Option Ty} {loc : Loc} {d : Ty} : w.known (.object loc) →
    w.store.nominal (.object loc) = some d → (U.decl d).form = .classType → d ≠ .null →
    Refers w ⟨ty, .object loc⟩ d
  | box {ty : Option Ty} {loc : Loc} {d : Ty} : w.known (.box loc) →
    w.store.nominal (.box loc) = some d → U.isValue d = true → Refers w ⟨ty, .box loc⟩ d
  | array {loc : Loc} {e : Ty} : w.known (.array loc) → w.store.nominal (.array loc) = some (.array e) →
    Refers w ⟨some (.array e), .array loc⟩ (.array e)
  | delegate {loc : Loc} {x : Delegate} {d : Ty} {sig : Signature} : w.known (.delegate loc) →
    w.store.delegates[loc]? = some x → U.signature? d = some sig → x.Serves F sig →
    Refers w ⟨some d, .delegate loc⟩ d

namespace Refers

variable {d : Ty}

theorem proper (h : w.Refers v d) : w.Proper v := by
  cases h with
  | text s => exact rfl
  | object hk hn hf hd => exact ⟨hk, d, hn, hf, hd⟩
  | box hk hn hv => exact ⟨hk, d, hn, hv⟩
  | array hk hn => exact ⟨hk, _, hn, rfl⟩
  | delegate hk hx hs hserves => exact ⟨hk, _, _, _, hx, rfl, hs, hserves⟩

theorem reference (h : w.Refers v d) : v.datum.isReference = true := by
  cases h <;> rfl

theorem ne_null (h : w.Refers v d) : v.datum ≠ .null := by
  cases h <;> nofun

theorem dynamicType (h : w.Refers v d) : w.store.dynamicType v = some d := by
  cases h with
  | text s => rfl
  | object _ hn | box _ hn => exact hn
  | array => rfl
  | delegate => rfl

theorem type_ne_null (h : w.Refers v d) : d ≠ .null := by
  cases h with
  | text s => nofun
  | object _ _ _ hd => exact hd
  | box _ _ hv =>
    rintro rfl
    cases hv
  | array => nofun
  | delegate _ _ hs =>
    rintro rfl
    cases hs

theorem not_interface (h : w.Refers v d) : U.isInterface d = false := by
  cases h with
  | text s => rfl
  | object _ _ hf => exact isInterface_of_class hf
  | box _ _ hv => exact isInterface_of_isValue hv
  | array => rfl
  | delegate _ _ hs => rw [isInterface, storage_of_delegate hs]; rfl

theorem is_iff_assignable (hU : U.Regular) (hd : d ≠ .null) (hv : U.isValue d = false)
    (hs : U.signature? d = none) : U.assignable d t = true ↔ U.Is d t := by
  refine ⟨fun h => Universe.Is.refl.assignable hU.closed hd h, fun h => ?_⟩
  unfold assignable
  by_cases heq : d = t
  · rw [if_pos heq]
  rw [if_neg heq, hv, if_neg Bool.false_ne_true, if_neg hd]
  by_cases hobject : t = .object
  · rw [if_pos hobject]
  rw [if_neg hobject]
  cases h with
  | refl => exact absurd rfl heq
  | object => exact absurd rfl hobject
  | base h =>
    rw [isInterface_of_class (hU.declared.class_of_lineage h), if_neg Bool.false_ne_true]
    simpa [isSubclass] using h
  | interface hi htable => simp [hi, implements, htable]
  | signature h =>
    rw [hs] at h
    cases h
  | value h =>
    rw [hv] at h
    cases h

theorem isInstance_iff (hU : U.Regular) (h : w.Refers v d) :
    w.store.isInstance U v (some t) = some true ↔ U.Is d t := by
  have hd := h.type_ne_null
  unfold isInstance
  rw [h.dynamicType]
  by_cases heq : d = t
  · subst heq
    simpa using Universe.Is.refl
  by_cases hobject : t = .object
  · subst hobject
    simpa using Universe.Is.object
  have hfirst : (decide (some d = some t) || decide (some t = some Ty.object)) = false := by
    simp [heq, hobject]
  simp only [hfirst, Bool.false_eq_true, if_false]
  cases h with
  | text s => 
    show some (U.assignable .string t) = some true ↔ _
    rw [some.injEq]
    exact is_iff_assignable hU hd rfl rfl
  | object hk hn hf =>
    show some (U.assignable d t) = some true ↔ _
    rw [some.injEq]
    refine is_iff_assignable hU hd (isValue_of_class hf) ?_
    rw [signature?, hf]
  | array =>
    show some (U.assignable _ t) = some true ↔ _
    rw [some.injEq]
    exact is_iff_assignable hU hd rfl rfl
  | box hk hn hv =>
    show some (U.boxesTo d t) = some true ↔ _
    rw [some.injEq]
    exact ⟨Universe.Is.of_boxesTo hU.declared, fun h => h.boxesTo hU.declared hv heq⟩
  | @delegate loc x _ sig hk hx hs =>
    show (if U.isDelegate t then some (decide (U.signature d = U.signature t)) else some false) = some true ↔ _
    cases ht : U.signature? t with
    | none =>
      rw [isDelegate, ht]
      refine ⟨(fun h => by cases h), fun h => ?_⟩
      have h := (h.signature_of_delegate hU.declared hs).resolve_left hobject
      rw [ht] at h
      cases h
    | some sig' =>
      have hsig : U.signature d = sig ∧ U.signature t = sig' := by simp [signature, hs, ht]
      rw [isDelegate, ht, hsig.1, hsig.2]
      simp only [isSome_some, if_true, some.injEq, decide_eq_true_eq]
      refine ⟨fun h => .signature hs (h ▸ ht), fun h => ?_⟩
      exact some.inj (((h.signature_of_delegate hU.declared hs).resolve_left hobject).symm.trans ht)

theorem isSome_isInstance (h : w.Refers v d) : (w.store.isInstance U v (some t)).isSome = true := by
  unfold isInstance
  rw [h.dynamicType]
  dsimp only
  split
  · rfl
  · split
    · rfl
    · split <;> rfl
    · contradiction
    · rfl

end Refers

theorem Proper.refers (h : w.Proper v) (hr : v.datum.isReference = true) (hn : v.datum ≠ .null) :
    ∃ d, w.Refers v d := by
  obtain ⟨ty, d⟩ := v
  cases d with
  | null => exact absurd rfl hn
  | text s =>
    obtain rfl : ty = some .string := h
    exact ⟨_, .text s⟩
  | object loc =>
    obtain ⟨hk, d, hd, hf, hne⟩ := h
    exact ⟨d, .object hk hd hf hne⟩
  | box loc =>
    obtain ⟨hk, d, hd, hv⟩ := h
    exact ⟨d, .box hk hd hv⟩
  | array loc =>
    obtain ⟨hk, e, he, hty⟩ := h
    obtain rfl : ty = some (.array e) := hty
    exact ⟨_, .array hk he⟩
  | delegate loc =>
    obtain ⟨hk, x, d, sig, hx, hty, hs, hserves⟩ := h
    obtain rfl : ty = some d := hty
    exact ⟨_, .delegate hk hx hs hserves⟩
  | _ => cases hr

/-- **A reference** is null, or its dynamic type is seen at the type. -/
theorem hasType_reference (hU : U.Regular) (hv : U.isValue t = false) :
    w.HasType v (some t) ↔ v.datum = .null ∨ ∃ d, w.Refers v d ∧ U.Is d t := by
  have hof : w.store.isOf U v t = if v.isNil then some true else w.store.isInstance U v (some t) := by
    unfold isOf
    unfold isValue at hv
    cases hs : U.storage t <;> simp_all [Storage.isValue]
  constructor
  · rintro ⟨hp, hcheck, href⟩
    by_cases hnull : v.datum = .null
    · exact .inl hnull
    · obtain ⟨d, hd⟩ := hp.refers (href hv) hnull
      rw [hof, Value.isNil, decide_eq_false hnull] at hcheck
      exact .inr ⟨d, hd, (hd.isInstance_iff hU).1 hcheck⟩
  · rintro (hnull | ⟨d, hd, his⟩)
    · refine ⟨?_, by rw [hof, Value.isNil, decide_eq_true hnull]; rfl, fun _ => by rw [hnull]; rfl⟩
      unfold Proper
      rw [hnull]
      trivial
    · refine ⟨hd.proper, ?_, fun _ => hd.reference⟩
      rw [hof, Value.isNil, decide_eq_false hd.ne_null]
      exact (hd.isInstance_iff hU).2 his

theorem HasType.assignable (hU : U.Regular) {a b : Ty} (h : w.HasType v (some a))
    (hab : U.assignable a b = true) : w.HasType v (some b) := by
  by_cases heq : a = b
  · exact heq ▸ h
  have ha : U.isValue a = false := by
    cases ha : U.isValue a with
    | false => rfl
    | true => simp [Universe.assignable, heq, ha] at hab
  have hb : U.isValue b = false := hU.declared.isValue_of_assignable heq hab
  rw [hasType_reference hU ha] at h
  rw [hasType_reference hU hb]
  rcases h with hnull | ⟨d, hd, his⟩
  · exact .inl hnull
  · exact .inr ⟨d, hd, his.assignable hU.closed hd.type_ne_null hab⟩

theorem hasType_null (hU : U.Regular) (hn : v.datum = .null) (hv : U.isValue t = false) :
    w.HasType v (some t) := (hasType_reference hU hv).2 (.inl hn)

theorem hasType_string (s : String) : w.HasType (.ofString s) (some .string) :=
  ⟨rfl, rfl, fun _ => rfl⟩

/-- **Methods** of a receiver: it has a dynamic type, which is seen at the owner of the method. -/
theorem HasType.receiver (hU : U.Regular) (h : w.HasType v (some t)) (hn : v.datum ≠ .null) :
    ∃ d, w.store.dynamicType v = some d ∧ U.Is d t ∧ d ≠ .null ∧ U.isInterface d = false ∧
      (U.isValue t = true → d = t) := by
  cases hv : U.isValue t with
  | true =>
    obtain ⟨-, -, hd⟩ := h.type_of_value hv
    refine ⟨t, hd, .refl, ?_, isInterface_of_isValue hv, fun _ => rfl⟩
    rintro rfl
    cases hv
  | false =>
    obtain ⟨d, hd, his⟩ := ((hasType_reference hU hv).1 h).resolve_left hn
    exact ⟨d, hd.dynamicType, his, hd.type_ne_null, hd.not_interface, nofun⟩

end Heap

end TreeMachine
