import TreeMachine.Proofs.Tree.Checked
import TreeMachine.Proofs.Types.Members

/-!
# Values of one type seen as another

A reference has a dynamic type and is seen at a static one. `Universe.Is` says which static types a
dynamic type can be seen at, and what callers rely on follows from it:

* **`Is.assignable`**, **`Is.hasMethodsOf`**: upcasts and the choice of methods stay within the relation.
* **`Declared.resolve_of_is`**: a method of a type that the dynamic type is seen at has an implementation,
  of the same signature, that the dynamic type or one of its bases declares.
* **`Declared.layout_of_field?`**: a field that a type has is at its index in the layout of the type.

`Universe.Regular` is what a host promises about the types it declares.
-/

open List Option

namespace TreeMachine

/-- What a host promises about its types. -/
structure Universe.Regular (U : Universe) : Prop where
  declared : U.Declared
  /-- The structs in the fields of a type were declared before it. -/
  nested : ∀ i, ∀ f ∈ (U.decl (.declared i)).fields, U.isAggregate f.type = true →
    ∃ j, j < i ∧ f.type = .declared j
  /-- An interface names no interfaces and has no static methods. -/
  interfaces : ∀ t, U.isInterface t = true →
    (U.decl t).interfaces = [] ∧ ∀ m ∈ (U.decl t).methods, m.isStatic = false
  null : ∀ t, .null ∉ (U.decl t).lineage
  /-- What an interface asks for is left to others; all other methods and constructors have a body. -/
  implemented : ∀ t, U.isInterface t = false →
    ∀ m ∈ (U.decl t).methods ++ (U.decl t).constructors, m.body.isSome = true

/-- No interface names interfaces, and no class is derived from the type of null. -/
structure Universe.Flat (U : Universe) : Prop where
  declared : U.Declared
  interfaces : ∀ t, U.isInterface t = true → (U.decl t).interfaces = []
  null : ∀ t, .null ∉ (U.decl t).lineage

theorem Universe.Regular.flat {U : Universe} (hU : U.Regular) : U.Flat where
  declared := hU.declared
  interfaces t h := (hU.interfaces t h).1
  null := hU.null

/-- No class is derived from the type of null, and what an interface implements is implemented wherever
the interface is. -/
structure Universe.Closed (U : Universe) : Prop where
  declared : U.Declared
  null : ∀ t, .null ∉ (U.decl t).lineage
  interfaces : ∀ t j i, U.implements t j = true → U.implements j i = true → U.implements t i = true

namespace Universe

variable {U : Universe} {d t c i a b : Ty} {sig : List Ty × Option Ty} {m : Method} {name : String} {f : Field}

/-! ## Bases of declared types -/

theorem Declared.traced_or (hU : U.Declared) (t : Ty) : (U.Knows t ∧ (U.decl t).Traced U t) ∨ U.decl t = default := by
  by_cases hk : U.Knows t
  · exact .inl ⟨hk, hU.allTraced t hk⟩
  · exact .inr (decl_of_not_knows hk)

theorem Declared.class_of_lineage (hU : U.Declared) (hc : c ∈ (U.decl t).lineage) : (U.decl c).form = .classType := by
  rcases hU.traced_or t with ⟨-, ht⟩ | ht
  · exact ht.lineage c hc
  · rw [ht] at hc
    cases hc

theorem isValue_of_class (h : (U.decl c).form = .classType) : U.isValue c = false := by
  simp [isValue, storage, h, Storage.isValue]

theorem isInterface_of_class (h : (U.decl c).form = .classType) : U.isInterface c = false := by
  simp [isInterface, storage, h]

theorem storage_of_delegate (h : U.signature? t = some sig) : U.storage t = .reference := by
  unfold signature? at h
  unfold storage
  revert h
  cases (U.decl t).form <;> simp

theorem isValue_of_delegate (h : U.signature? t = some sig) : U.isValue t = false := by
  rw [isValue, storage_of_delegate h]
  rfl

theorem isScalar_of_form {p : Primitive} (h : (U.decl a).form = .scalar p) : U.isScalar a = true := by
  simp [isScalar, storage, h]

theorem numbers_of_isWidening (h : U.isWidening a b = true) : (U.isScalar a = true ∧ U.isScalar b = true) ∧
      (U.primitive? a ≠ some .bool ∧ U.primitive? b ≠ some .bool) ∧ U.isEnum a = false ∧ U.isEnum b = false := by
  unfold isWidening at h
  split at h
  · rename_i p q hp hq
    simp only [Bool.and_eq_true] at h
    have hne : p ≠ .bool ∧ q ≠ .bool := by
      constructor <;> (rintro rfl; simp [Primitive.isNumeric] at h)
    exact ⟨⟨isScalar_of_form hp, isScalar_of_form hq⟩, by simpa [primitive?, hp, hq] using hne,
      by simp [isEnum, hp], by simp [isEnum, hq]⟩
  · cases h

theorem any_isNumeric_iff (h : U.isScalar a = true) :
    (U.primitive? a).any Primitive.isNumeric = true ↔ U.primitive? a ≠ some .bool := by
  unfold isScalar storage at h
  unfold primitive?
  cases hform : (U.decl a).form with
  | scalar p | enumeration p _ => cases p <;> simp [Primitive.isNumeric]
  | _ => simp [hform] at h

theorem isScalar_of_isValue (h : U.isValue a = false) : U.isScalar a = false := by
  unfold isValue at h
  unfold isScalar
  cases hs : U.storage a <;> simp_all [Storage.isValue]

theorem Declared.eq_of_isValue (hU : U.Declared) (hc : c ∈ U.chain t) (hv : U.isValue c = true) : c = t := by
  rcases mem_cons.1 hc with rfl | hc
  · rfl
  · rw [isValue_of_class (hU.class_of_lineage hc)] at hv
    cases hv

theorem Declared.isInterface_of_chain (hU : U.Declared) (hc : c ∈ U.chain t) (ht : U.isInterface t = false) :
    U.isInterface c = false := by
  rcases mem_cons.1 hc with rfl | hc
  · exact ht
  · exact isInterface_of_class (hU.class_of_lineage hc)

theorem Declared.object_mem_chain (hU : U.Declared) (hk : U.Knows t) (hi : U.isInterface t = false) :
    .object ∈ U.chain t := by
  have hshape := (hU.allTraced t hk).shape
  unfold TypeDecl.Shaped at hshape
  cases hform : (U.decl t).form <;> simp only [hform] at hshape
  case scalar p =>
    rw [hshape]
    cases p <;> simp [chain, Primitive.type, decl, Builtin.scalar]
  case enumeration => simp [chain, hshape.2.1]
  case struct => simp [chain, hshape.2]
  case classType => exact hshape
  case interface => simp [isInterface, storage, hform] at hi
  case array =>
    obtain ⟨e, rfl⟩ := hshape
    simp [chain, decl, Builtin.array]
  case delegate => simp [chain, hshape.1]

theorem Declared.lineage_of_value (hU : U.Declared) (hk : U.Knows t) (hv : U.isValue t = true) :
    (U.decl t).lineage = if U.isEnum t then [.enumBase, .valueType, .object] else [.valueType, .object] := by
  have hshape := (hU.allTraced t hk).shape
  unfold TypeDecl.Shaped at hshape
  unfold isValue storage at hv
  unfold isEnum
  cases hform : (U.decl t).form <;> simp only [hform] at hshape
  case scalar p =>
    rw [hshape]
    cases p <;> rfl
  case enumeration => simpa using hshape.2.1
  case struct => simpa using hshape.2
  all_goals simp [hform, Storage.isValue] at hv

theorem Declared.bare_of_delegate (hU : U.Declared) (h : U.signature? t = some sig) :
    (U.decl t).Bare ∧ (U.decl t).lineage = [.object] := by
  unfold signature? at h
  rcases hU.traced_or t with ⟨-, ht⟩ | ht
  · have hshape := ht.shape
    unfold TypeDecl.Shaped at hshape
    cases hform : (U.decl t).form with
    | delegate params result =>
      simp only [hform] at hshape
      exact ⟨hshape.2.1, hshape.1⟩
    | _ => simp [hform] at h
  · rw [ht] at h
    cases h

theorem Declared.bare_of_interface (hU : U.Declared) (h : U.isInterface t = true) :
    (U.decl t).lineage = [] ∧ (U.decl t).fields = [] ∧ (U.decl t).vtable = [] := by
  unfold isInterface storage at h
  rcases hU.traced_or t with ⟨-, ht⟩ | ht
  · have hshape := ht.shape
    unfold TypeDecl.Shaped at hshape
    cases hform : (U.decl t).form with
    | interface => simpa only [hform] using hshape
    | _ => simp [hform] at h
  · rw [ht] at h
    cases h

/-! ## Interface tables -/

theorem table?_isSome_iff :
    (U.table? t i).isSome = true ↔ ∃ c ∈ U.chain t, ((U.decl c).tables.lookup i).isSome = true := by
  simp [table?, findSome?_isSome_iff]

theorem Declared.table?_of_chain (hU : U.Declared) (hc : c ∈ U.chain t) (h : (U.table? c i).isSome = true) :
    (U.table? t i).isSome = true := by
  obtain ⟨b, hb, hlookup⟩ := table?_isSome_iff.1 h
  exact table?_isSome_iff.2 ⟨b, hU.allLaid.mem_chain_trans hc hb, hlookup⟩

theorem table?_eq_none (h : ∀ c ∈ U.chain t, (U.decl c).tables = []) : U.table? t i = none := by
  rw [← not_isSome_iff_eq_none, table?_isSome_iff]
  rintro ⟨c, hc, hlookup⟩
  rw [h c hc] at hlookup
  cases hlookup

theorem Declared.table?_of_delegate (hU : U.Declared) (h : U.signature? t = some sig) : U.table? t i = none := by
  obtain ⟨hbare, hlineage⟩ := hU.bare_of_delegate h
  refine table?_eq_none fun c hc => ?_
  simp only [chain, hlineage, mem_cons, not_mem_nil, or_false] at hc
  rcases hc with rfl | rfl
  · exact hbare.tables
  · rfl

theorem Flat.table?_of_interface (hU : U.Flat) (h : U.isInterface t = true) : U.table? t i = none := by
  have hlineage := (hU.declared.bare_of_interface h).1
  refine table?_eq_none fun c hc => ?_
  simp only [chain, hlineage, mem_cons, not_mem_nil, or_false] at hc
  subst hc
  rcases hU.declared.traced_or c with ⟨-, ht⟩ | ht
  · have hnames := ht.interfaces
    rw [hU.interfaces c h] at hnames
    exact map_eq_nil_iff.1 hnames
  · rw [ht]
    rfl

theorem isInterface_of_implements (h : U.implements t i = true) : U.isInterface i = true := by
  simp only [implements, Bool.and_eq_true] at h
  exact h.1

/-- Interfaces that name no interfaces have nothing to hand down. -/
theorem Flat.closed (hU : U.Flat) : U.Closed where
  declared := hU.declared
  null := hU.null
  interfaces t j i htj hji := by
    have hj := isInterface_of_implements htj
    simp only [implements, hU.table?_of_interface hj, Bool.and_eq_true, Bool.or_eq_true,
      decide_eq_true_eq, isSome_none, Bool.false_eq_true, or_false] at hji
    exact hji.2 ▸ htj

theorem Regular.closed (hU : U.Regular) : U.Closed := hU.flat.closed

/-! ## Dynamic and static types -/

/-- A reference of dynamic type `d` can be seen at these types. -/
inductive Is (U : Universe) (d : Ty) : Ty → Prop
  | refl : Is U d d
  | object : Is U d .object
  | base {t : Ty} : t ∈ (U.decl d).lineage → Is U d t
  | interface {t : Ty} : U.isInterface t = true → (U.table? d t).isSome = true → Is U d t
  | signature {t : Ty} {sig : List Ty × Option Ty} :
    U.signature? d = some sig → U.signature? t = some sig → Is U d t
  | value : U.isValue d = true → Is U d .valueType

theorem Is.of_chain (h : t ∈ U.chain d) : U.Is d t := by
  rcases mem_cons.1 h with rfl | h
  · exact .refl
  · exact .base h

theorem Is.eq_null (hU : U.Closed) (h : U.Is d .null) : d = .null := by
  cases h with
  | refl => rfl
  | base h => exact absurd h (hU.null d)
  | interface h | signature _ h => cases h

/-- A value type is seen at its own type and at reference types only. -/
theorem Is.eq_of_isValue (hU : U.Declared) (h : U.Is d t) (hv : U.isValue t = true) : d = t := by
  cases h with
  | refl => rfl
  | object => cases hv
  | base h => exact (hU.eq_of_isValue (mem_cons_of_mem _ h) hv).symm
  | interface h => 
    unfold isInterface at h
    unfold isValue at hv
    rw [of_decide_eq_true h] at hv
    cases hv
  | signature _ h =>
    rw [isValue_of_delegate h] at hv
    cases hv
  | value => cases hv

theorem Is.signature_of_delegate (hU : U.Declared) (hs : U.signature? d = some sig) (h : U.Is d t) :
    t = .object ∨ U.signature? t = some sig := by
  cases h with
  | refl => exact .inr hs
  | object => exact .inl rfl
  | base h =>
    rw [(hU.bare_of_delegate hs).2] at h
    exact .inl (mem_singleton.1 h)
  | interface _ h =>
    rw [hU.table?_of_delegate hs] at h
    cases h
  | signature hs' ht =>
    obtain rfl := some.inj (hs.symm.trans hs')
    exact .inr ht
  | value h =>
    rw [isValue_of_delegate hs] at h
    cases h

theorem Is.delegate_of_signature (hU : U.Declared) (h : U.Is d t) (ht : U.signature? t = some sig) :
    U.signature? d = some sig := by
  cases h with
  | refl => exact ht
  | object => cases ht
  | base h =>
    rw [signature?, hU.class_of_lineage h] at ht
    cases ht
  | interface hi =>
    rw [isInterface, storage_of_delegate ht] at hi
    cases hi
  | signature hs hs' =>
    obtain rfl := some.inj (ht.symm.trans hs')
    exact hs
  | value => cases ht

theorem Is.eq_array (hU : U.Declared) {e : Ty} (h : U.Is d (.array e)) : d = .array e := by
  cases h with
  | refl => rfl
  | base h => cases hU.class_of_lineage h
  | interface hi => cases hi
  | signature _ hs => cases hs

theorem Is.of_base (hU : U.Closed) (h : U.Is d a) (hb : U.isSubclass a b = true) : U.Is d b := by
  have hbase : b ∈ (U.decl a).lineage := by simpa [isSubclass] using hb
  cases h with
  | refl => exact .base hbase
  | object => cases hbase
  | base h =>
    exact .of_chain (hU.declared.allLaid.mem_chain_trans (mem_cons_of_mem _ h)
      (mem_cons_of_mem _ hbase))
  | interface ha =>
    rw [(hU.declared.bare_of_interface ha).1] at hbase
    cases hbase
  | signature _ ha =>
    rw [(hU.declared.bare_of_delegate ha).2] at hbase
    rw [mem_singleton.1 hbase]
    exact .object
  | value =>
    rw [mem_singleton.1 hbase]
    exact .object

theorem Is.assignable (hU : U.Closed) (h : U.Is d a) (hd : d ≠ .null) (hab : U.assignable a b = true) : U.Is d b := by
  unfold Universe.assignable at hab
  split at hab
  · rename_i heq
    exact heq ▸ h
  split at hab
  · cases hab
  split at hab
  · rename_i hnull
    subst hnull
    exact absurd (h.eq_null hU) hd
  split at hab
  · rename_i hobject
    rw [hobject]
    exact .object
  split at hab
  · -- an interface that `a` implements
    rename_i hab' hi
    have himplements := hab
    simp only [implements, hi, Bool.true_and, Bool.or_eq_true, decide_eq_true_eq] at hab
    have htable : (U.table? a b).isSome = true := hab.resolve_left ‹¬a = b›
    cases h with
    | refl => exact .interface hi htable
    | object => cases htable
    | base h => exact .interface hi (hU.declared.table?_of_chain (mem_cons_of_mem _ h) htable)
    | interface ha hda =>
      have hdb := hU.interfaces d a b (by simp [implements, ha, hda]) himplements
      simp only [implements, hi, Bool.true_and, Bool.or_eq_true, decide_eq_true_eq] at hdb
      rcases hdb with rfl | hdb
      · exact .refl
      · exact .interface hi hdb
    | signature _ ha =>
      rw [hU.declared.table?_of_delegate ha] at htable
      cases htable
    | value => cases htable
  · exact h.of_base hU hab

theorem Declared.isValue_of_assignable (hU : U.Declared) (hne : a ≠ b) (h : U.assignable a b = true) :
    U.isValue b = false := by
  unfold Universe.assignable at h
  rw [if_neg hne] at h
  split at h
  · cases h
  split at h
  · simpa using h
  split at h
  · rename_i hobject
    rw [hobject]
    rfl
  split at h
  · rename_i hi
    unfold isInterface at hi
    rw [isValue, of_decide_eq_true hi]
    rfl
  · exact isValue_of_class (hU.class_of_lineage (t := a) (by simpa [isSubclass] using h))

theorem isValue_of_boxesTo (h : U.boxesTo a b = true) : U.isValue a = true := by
  simp only [Universe.boxesTo, Bool.and_eq_true] at h
  exact h.1

theorem target_of_boxesTo (h : U.boxesTo a b = true) : U.isValue b = false := by
  simp only [Universe.boxesTo, Bool.and_eq_true] at h
  obtain ⟨-, h⟩ := h
  split at h
  · rename_i hb
    simp only [Bool.or_eq_true, decide_eq_true_eq] at hb
    rcases hb with rfl | rfl <;> rfl
  split at h
  · rename_i hb
    rw [hb]
    rfl
  · simp only [Bool.and_eq_true] at h
    unfold isInterface at h
    rw [isValue, of_decide_eq_true h.1]
    rfl

theorem Is.of_boxesTo (hU : U.Declared) (h : U.boxesTo d b = true) : U.Is d b := by
  simp only [boxesTo, Bool.and_eq_true] at h
  obtain ⟨hv, h⟩ := h
  split at h
  · rename_i hb
    simp only [Bool.or_eq_true, decide_eq_true_eq] at hb
    rcases hb with rfl | rfl
    · exact .object
    · exact .value hv
  split at h
  · rename_i hb
    subst hb
    have hk : U.Knows d := by
      by_contra hk
      simp [isEnum, decl_of_not_knows hk, default, instInhabitedTypeDecl.default, instInhabitedForm.default] at h
    refine .base ?_
    rw [hU.lineage_of_value hk hv, if_pos h]
    exact mem_cons_self
  · simp only [implements, Bool.and_eq_true, Bool.or_eq_true, decide_eq_true_eq] at h
    obtain ⟨hi, -, rfl | htable⟩ := h
    · exact .refl
    · exact .interface hi htable

theorem Is.boxesTo (hU : U.Declared) (h : U.Is d b) (hv : U.isValue d = true) (hne : d ≠ b) :
    U.boxesTo d b = true := by
  have hclass : ∀ {c : Ty}, c ∈ (U.decl d).lineage → U.boxesTo d c = true := by
    intro c hc
    rcases hU.traced_or d with ⟨hk, -⟩ | hd
    · rw [hU.lineage_of_value hk hv] at hc
      split at hc
      · rename_i henum
        simp only [mem_cons, not_mem_nil, or_false] at hc
        rcases hc with rfl | rfl | rfl <;> simp [Universe.boxesTo, hv, henum]
      · simp only [mem_cons, not_mem_nil, or_false] at hc
        rcases hc with rfl | rfl <;> simp [Universe.boxesTo, hv]
    · rw [hd] at hc
      cases hc
  cases h with
  | refl => exact absurd rfl hne
  | object => simp [Universe.boxesTo, hv]
  | base h => exact hclass h
  | interface hi htable =>
    have hobject : b ≠ .object := by rintro rfl; cases hi
    have hvalue : b ≠ .valueType := by rintro rfl; cases hi
    have henum : b ≠ .enumBase := by rintro rfl; cases hi
    simp [Universe.boxesTo, hv, hobject, hvalue, henum, hi, implements, htable]
  | signature h =>
    rw [isValue_of_delegate h] at hv
    cases hv
  | value => simp [Universe.boxesTo, hv]

theorem Is.hasMethodsOf (hU : U.Closed) {owner : Ty} (h : U.Is d a) (hd : d ≠ .null)
    (ho : Build.hasMethodsOf U a owner = true) : U.Is d owner := by
  simp only [Build.hasMethodsOf, Bool.or_eq_true, decide_eq_true_eq] at ho
  rcases ho with ((rfl | ho) | ho) | ho
  · exact h
  · exact h.assignable hU hd ho
  · exact h.of_base hU ho
  · have hv : U.isValue a = true := by
      simp only [Universe.boxesTo, Bool.and_eq_true] at ho
      exact ho.1
    obtain rfl := h.eq_of_isValue hU.declared hv
    exact .of_boxesTo hU.declared ho

/-! ## Implementations -/

structure Implementation (U : Universe) (d : Ty) (m impl : Method) : Prop where
  declared : U.Declares impl
  same : impl.SameSignature m
  concrete : U.isInterface impl.owner = false
  /-- Methods of types that the host declares come from the chain of the receiver. -/
  owner : impl.owner ∈ U.chain d ∨ ∀ i, impl.owner ≠ .declared i
  value : U.isValue impl.owner = true → impl.owner = d

theorem Declared.mem_of_has (hU : U.Declared) (hk : U.Knows d) (h : (U.decl d).Has U m) :
    U.Declares m ∧ m.owner ∈ U.chain d := by
  rcases h with h | ⟨c, hc, h⟩
  · have ho := (hU.allTraced d hk).owner m h
    exact ⟨by rwa [Declares, ho], by rw [ho]; exact mem_cons_self⟩
  · have ho := (hU.allTraced c (knows_of_class (hU.class_of_lineage hc))).owner m h
    exact ⟨by rwa [Declares, ho], by rw [ho]; exact mem_cons_of_mem _ hc⟩

theorem Declared.implementation_inSlot (hU : U.Declared) (hi : U.isInterface d = false) {n : Method}
    (hm : U.Declares n) (ho : n.owner ∈ U.chain d) (hfit : FitsVtable (U.decl d).vtable n)
    (hsame : n.SameSignature m) : U.Implementation d m ((inSlot? (U.decl d).vtable n).getD n) := by
  have hsame' := hfit.inSlot.trans hsame
  have hfound : U.Declares ((inSlot? (U.decl d).vtable n).getD n) ∧
      ((inSlot? (U.decl d).vtable n).getD n).owner ∈ U.chain d := by
    cases hslot : inSlot? (U.decl d).vtable n with
    | none => exact ⟨hm, ho⟩
    | some r =>
      obtain ⟨k, -, hk⟩ := bind_eq_some_iff.1 hslot
      have hmem : r ∈ (U.decl d).vtable := mem_of_getElem? hk
      rcases hU.traced_or d with ⟨hknows, ht⟩ | hd
      · exact hU.mem_of_has hknows (ht.vtable r hmem)
      · rw [hd] at hmem
        cases hmem
  exact ⟨hfound.1, hsame', hU.isInterface_of_chain hfound.2 hi, .inl hfound.2,
    fun hv => hU.eq_of_isValue hfound.2 hv⟩

theorem Declared.resolve_of_chain (hU : U.Declared) (hi : U.isInterface d = false) (hm : U.Declares m)
    (ho : m.owner ∈ U.chain d) : ∃ impl, U.resolve d m = some impl ∧ U.Implementation d m impl := by
  have hmi : U.isInterface m.owner = false := hU.isInterface_of_chain ho hi
  refine ⟨_, by rw [resolve, hmi]; rfl, hU.implementation_inSlot hi hm ho ?_ (.refl m)⟩
  exact ((hU.allLaid m.owner).methods m hm).mono (hU.allLaid.refines ho)

/-- A type without a declaration has the methods of builtin types only. -/
theorem resolve_of_not_knows (hd : U.decl d = default) (hm : U.Declares m) (hmi : U.isInterface m.owner = false)
    (hb : ∀ i, m.owner ≠ .declared i) (hv : U.isValue m.owner = false) :
    ∃ impl, U.resolve d m = some impl ∧ U.Implementation d m impl := by
  refine ⟨m, ?_, hm, .refl m, hmi, .inr hb, fun h => ?_⟩
  · have hslot : inSlot? (U.decl d).vtable m = none := by
      rw [hd, inSlot?]
      cases m.slot <;> rfl
    simp [resolve, hmi, hslot]
  · rw [hv] at h
    cases h

theorem Declared.resolve_of_table (hU : U.Declared) (hi : U.isInterface d = false) (hm : U.Declares m)
    (hs : m.isStatic = false) (hmi : U.isInterface m.owner = true) (ht : (U.table? d m.owner).isSome = true) :
    ∃ impl, U.resolve d m = some impl ∧ U.Implementation d m impl := by
  obtain ⟨table, htable⟩ := isSome_iff_exists.1 ht
  obtain ⟨c, hc, he⟩ := mem_tables htable
  have hknows : U.Knows c := by
    by_contra hk
    rw [decl_of_not_knows hk] at he
    cases he
  obtain ⟨-, hlen, hentries⟩ := (hU.allTraced c hknows).tables _ he
  -- the place of the method in its interface is a place of the table
  obtain ⟨k, hidx⟩ : ∃ k, (U.decl m.owner).methods.findIdx? (· = m) = some k :=
    isSome_iff_exists.1 (findIdx?_isSome.trans (any_eq_true.2 ⟨m, hm, by simp⟩))
  obtain ⟨hk, hkm, -⟩ := findIdx?_eq_some_iff_getElem.1 hidx
  have hk' : k < table.length := by rw [hlen]; exact hk
  have hfound : table[k]? = some table[k] := getElem?_eq_getElem hk'
  have him : (U.decl m.owner).methods[k]? = some m := by
    rw [getElem?_eq_getElem hk]
    simpa using hkm
  obtain ⟨hn, hp, hr, hstatic, hfit⟩ := ((hU.allLaid c).tables _ he).2 k m _ him hfound
  obtain ⟨hdeclares, howner⟩ := hU.mem_of_has hknows (hentries _ (getElem_mem hk'))
  refine ⟨_, ?_, hU.implementation_inSlot hi hdeclares (hU.allLaid.mem_chain_trans hc howner)
    (hfit.mono (hU.allLaid.refines hc)) ⟨hn, hp, hr, hstatic.trans hs.symm⟩⟩
  simp [resolve, hmi, hi, htable, hidx, hfound]

/-- **A method has an implementation** wherever the receiver is seen at its owner. -/
theorem Declared.resolve_of_is (hU : U.Declared) (hi : U.isInterface d = false) (hm : U.Declares m)
    (hs : m.isStatic = false) (h : U.Is d m.owner) :
    ∃ impl, U.resolve d m = some impl ∧ U.Implementation d m impl := by
  -- the bases of all types that are known, or builtin types where none is
  have hroot : (U.Knows d → m.owner ∈ U.chain d) → (m.owner = .object ∨ m.owner = .valueType) →
      ∃ impl, U.resolve d m = some impl ∧ U.Implementation d m impl := by
    intro hchain ho
    rcases hU.traced_or d with ⟨hk, -⟩ | hd
    · exact hU.resolve_of_chain hi hm (hchain hk)
    · rcases ho with ho | ho <;>
        exact resolve_of_not_knows hd hm (by rw [ho]; rfl) (by simp [ho]) (by rw [ho]; rfl)
  generalize ho : m.owner = o at h
  cases h with
  | refl => exact hU.resolve_of_chain hi hm (by rw [ho]; exact mem_cons_self)
  | object =>
    exact hroot (fun hk => by rw [ho]; exact hU.object_mem_chain hk hi) (.inl ho)
  | base h => exact hU.resolve_of_chain hi hm (by rw [ho]; exact mem_cons_of_mem _ h)
  | interface hmi ht =>
    rw [← ho] at hmi ht
    exact hU.resolve_of_table hi hm hs hmi ht
  | signature _ hsig =>
    rw [Declares, ho, (hU.bare_of_delegate hsig).1.methods] at hm
    cases hm
  | value hv =>
    refine hroot (fun hk => ?_) (.inr ho)
    rw [ho]
    refine mem_cons_of_mem _ ?_
    rw [hU.lineage_of_value hk hv]
    split
    · exact mem_cons_of_mem _ mem_cons_self
    · exact mem_cons_self

/-! ## Members -/

theorem Declared.layout_of_field? (hU : U.Declared) (h : U.field? t name = some f) :
    (U.layout t)[f.index]? = some f := by
  obtain ⟨c, hc, hf⟩ := List.exists_of_findSome?_eq_some h
  have hmem : f ∈ (U.decl c).fields := List.mem_of_find?_eq_some hf
  rcases hU.traced_or c with ⟨-, ht⟩ | hd
  · have hat := ht.fields f hmem
    rw [← layout_eq] at hat
    obtain ⟨r, hr⟩ := hU.allLaid.layout_prefix hc
    rw [← hr, List.getElem?_append_left (List.getElem?_eq_some_iff.1 hat).1]
    exact hat
  · rw [hd] at hmem
    cases hmem

theorem layout_eq_nil (h : ∀ c ∈ U.chain t, (U.decl c).fields = []) : U.layout t = [] := by
  refine flatMap_eq_nil_iff.2 fun c hc => h c (mem_reverse.1 hc)

theorem Declared.layout_of_interface (hU : U.Declared) (h : U.isInterface t = true) : U.layout t = [] := by
  obtain ⟨hl, hf, -⟩ := hU.bare_of_interface h
  refine layout_eq_nil fun c hc => ?_
  simp only [chain, hl, mem_singleton] at hc
  rwa [hc]

theorem Declared.layout_of_delegate (hU : U.Declared) (h : U.signature? t = some sig) : U.layout t = [] := by
  obtain ⟨hbare, hl⟩ := hU.bare_of_delegate h
  refine layout_eq_nil fun c hc => ?_
  simp only [chain, hl, mem_cons, not_mem_nil, or_false] at hc
  rcases hc with rfl | rfl
  · exact hbare.fields
  · rfl

/-- What a type has in its layout is at the same place in the layout of all that is seen at the type. -/
theorem Is.layout (hU : U.Declared) {i : Nat} (h : U.Is d t) (hf : (U.layout t)[i]? = some f) :
    (U.layout d)[i]? = some f := by
  cases h with
  | refl => exact hf
  | object => cases hf
  | base h =>
    obtain ⟨r, hr⟩ := hU.allLaid.layout_prefix (List.mem_cons_of_mem _ h)
    rw [← hr, List.getElem?_append_left (List.getElem?_eq_some_iff.1 hf).1]
    exact hf
  | interface hi =>
    rw [hU.layout_of_interface hi] at hf
    cases hf
  | signature _ hsig =>
    rw [hU.layout_of_delegate hsig] at hf
    cases hf
  | value => cases hf

theorem Is.layout_of_boxed (hU : U.Declared) (h : U.Is d t) (hv : U.isValue d = true) (hne : d ≠ t) :
    U.layout t = [] := by
  have hbases : ∀ {c : Ty}, c ∈ [Ty.enumBase, .valueType, .object] → U.layout c = [] := by
    intro c hc
    simp only [mem_cons, not_mem_nil, or_false] at hc
    rcases hc with rfl | rfl | rfl <;> rfl
  cases h with
  | refl => exact absurd rfl hne
  | object => rfl
  | base h =>
    rcases hU.traced_or d with ⟨hk, -⟩ | hd
    · rw [hU.lineage_of_value hk hv] at h
      split at h
      · exact hbases h
      · exact hbases (mem_cons_of_mem _ h)
    · rw [hd] at h
      cases h
  | interface hi => exact hU.layout_of_interface hi
  | signature _ hsig => exact hU.layout_of_delegate hsig
  | value => rfl

theorem Regular.accessors (hU : U.Regular) {p : Property} (h : U.property? t name = some p) :
    ∃ c ∈ U.chain t, p ∈ (U.decl c).properties ∧ (U.Declares p.getter ∧ p.getter.owner = c) ∧
      ∀ m, p.setter = some m → U.Declares m ∧ m.owner = c := by
  obtain ⟨c, hc, hp⟩ := exists_of_findSome?_eq_some h
  have hmem : p ∈ (U.decl c).properties := mem_of_find?_eq_some hp
  rcases hU.declared.traced_or c with ⟨-, ht⟩ | hd
  · have hown : ∀ m ∈ (U.decl c).methods, U.Declares m ∧ m.owner = c := fun m hm =>
      ⟨by rwa [Declares, ht.owner m hm], ht.owner m hm⟩
    exact ⟨c, hc, hmem, hown _ (ht.getter p hmem), fun m hm => hown _ (ht.setter p hmem m hm)⟩
  · rw [hd] at hmem
    cases hmem

theorem member?_eq_none (h : ∀ c ∈ U.chain t, (U.decl c).fields = [] ∧ (U.decl c).properties = [])
    (name : String) : U.member? t name = none := by
  have hfield : U.field? t name = none := findSome?_eq_none_iff.2 fun c hc => by rw [(h c hc).1]; rfl
  have hproperty : U.property? t name = none :=
    findSome?_eq_none_iff.2 fun c hc => by rw [(h c hc).2]; rfl
  simp [member?, hfield, hproperty]

theorem Declared.bare_of_scalar (hU : U.Declared) (h : U.isScalar t = true) :
    ∀ c ∈ U.chain t, (U.decl c).fields = [] ∧ (U.decl c).properties = [] := by
  have hbases : ∀ c ∈ [Ty.enumBase, .valueType, .object],
      (U.decl c).fields = [] ∧ (U.decl c).properties = [] := by
    intro c hc
    simp only [mem_cons, not_mem_nil, or_false] at hc
    rcases hc with rfl | rfl | rfl <;> exact ⟨rfl, rfl⟩
  intro c hc
  rcases hU.traced_or t with ⟨hk, ht⟩ | hd
  · have hv : U.isValue t = true := by
      simp only [isScalar, decide_eq_true_eq] at h
      simp [isValue, h, Storage.isValue]
    rcases mem_cons.1 hc with rfl | hc
    · have hshape := ht.shape
      unfold TypeDecl.Shaped at hshape
      unfold isScalar storage at h
      cases hform : (U.decl c).form with
      | scalar p =>
        simp only [hform] at hshape
        rw [hshape]
        cases p <;> exact ⟨rfl, rfl⟩
      | enumeration p names =>
        simp only [hform] at hshape
        exact ⟨hshape.2.2.fields, hshape.2.2.properties⟩
      | _ => simp [hform] at h
    · rw [hU.lineage_of_value hk hv] at hc
      refine hbases c ?_
      split at hc
      · exact hc
      · exact mem_cons_of_mem _ hc
  · simp only [chain, hd] at hc
    obtain rfl := mem_singleton.1 hc
    rw [hd]
    exact ⟨rfl, rfl⟩

theorem Declared.member?_of_scalar (hU : U.Declared) (h : U.isScalar t = true) (name : String) :
    U.member? t name = none := member?_eq_none (hU.bare_of_scalar h) name

theorem Declared.layout_of_scalar (hU : U.Declared) (h : U.isScalar t = true) : U.layout t = [] :=
  layout_eq_nil fun c hc => (hU.bare_of_scalar h c hc).1

/-! ## Scalars -/

theorem Declared.eq_of_scalar (hU : U.Declared) {p : Primitive} (h : (U.decl t).form = .scalar p)
    (hp : p ≠ .bool) : t = p.type := by
  rcases hU.traced_or t with ⟨-, ht⟩ | hd
  · have hshape := ht.shape
    simpa only [TypeDecl.Shaped, h] using hshape
  · rw [hd] at h
    exact absurd (Form.scalar.inj h).symm hp

theorem Declared.eq_of_isNumeric (hU : U.Declared) (h : U.isNumeric t = true) :
    ∃ p : Primitive, t = p.type ∧ p ≠ .bool := by
  unfold isNumeric at h
  split at h
  · rename_i p hform
    have hp : p ≠ .bool := by rintro rfl; cases h
    exact ⟨p, hU.eq_of_scalar hform hp, hp⟩
  · cases h

end Universe

end TreeMachine
