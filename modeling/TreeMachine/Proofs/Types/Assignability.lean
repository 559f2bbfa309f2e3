import TreeMachine.Proofs.Types.Instances
import TreeMachine.Value.Check

/-!
# Chains of upcasts

An upcast is no instruction, so a chain of upcasts is right only if its end follows from its start. Two
things break a chain: a class below the type of null, which goes everywhere, and an interface that names
another one, because what implements the first has no table for the second. `Universe.Closed` rules out
both, and is all there is to it (`assignable_preorder_iff`).
-/

namespace TreeMachine

open Universe Builtin

namespace Universe

variable {U : Universe} {t u w : Ty}

/-! ## Upcasts one by one -/

inductive Upcast (U : Universe) : Ty → Ty → Prop
  | refl (t : Ty) : Upcast U t t
  | null {u : Ty} : U.isValue u = false → Upcast U .null u
  | object {t : Ty} : U.isValue t = false → Upcast U t .object
  | interface {t u : Ty} : U.isValue t = false → U.implements t u = true → Upcast U t u
  | base {t u : Ty} : U.isValue t = false → u ∈ (U.decl t).lineage → Upcast U t u

theorem isValue_of_isInterface (h : U.isInterface t = true) : U.isValue t = false := by
  unfold isInterface at h
  rw [isValue, of_decide_eq_true h]
  rfl

theorem Upcast.of_assignable (h : U.assignable t u = true) : U.Upcast t u := by
  unfold assignable at h
  split at h
  · rename_i heq
    exact heq ▸ .refl t
  split at h
  · cases h
  rename_i hv
  have hv : U.isValue t = false := by simpa using hv
  split at h
  · rename_i hnull
    rw [hnull]
    exact .null (by simpa using h)
  split at h
  · rename_i hobject
    rw [hobject]
    exact .object hv
  split at h
  · exact .interface hv h
  · exact .base hv (by simpa [isSubclass] using h)

theorem Upcast.isValue_target (hU : U.Declared) (h : U.Upcast t u) (hne : t ≠ u) : U.isValue u = false := by
  cases h with
  | refl => exact absurd rfl hne
  | null h => exact h
  | object => rfl
  | interface _ h => exact isValue_of_isInterface (isInterface_of_implements h)
  | base _ h => exact isValue_of_class (hU.class_of_lineage h)

theorem Upcast.assignable (hU : U.Declared) (h : U.Upcast t u) : U.assignable t u = true := by
  by_cases heq : t = u
  · rw [Universe.assignable, if_pos heq]
  have hu := h.isValue_target hU heq
  unfold Universe.assignable
  rw [if_neg heq]
  cases h with
  | refl => exact absurd rfl heq
  | null => simp [hu, show U.isValue .null = false from rfl]
  | object hv => simp [hv, hu]
  | interface hv h => simp [hv, hu, isInterface_of_implements h, h]
  | base hv h =>
    have hi := isInterface_of_class (hU.class_of_lineage h)
    have hsub : U.isSubclass t u = true := by simpa [isSubclass] using h
    simp [hv, hu, hi, hsub]

/-! ## Chains -/

theorem not_implements (ht : U.isInterface t = false) (h : ∀ c ∈ U.chain t, (U.decl c).tables = []) :
    U.implements t u = false := by
  by_cases hi : U.isInterface u = true
  · have hne : t ≠ u := by
      rintro rfl
      rw [ht] at hi
      cases hi
    simp [implements, hne, table?_eq_none h]
  · simp [implements, hi]

theorem Declared.implements_of_lineage (hU : U.Declared) (hu : u ∈ (U.decl t).lineage)
    (h : U.implements u w = true) : U.implements t w = true := by
  have hi := isInterface_of_implements h
  simp only [implements, hi, Bool.true_and, Bool.or_eq_true, decide_eq_true_eq] at h ⊢
  rcases h with rfl | h
  · rw [isInterface_of_class (hU.class_of_lineage hu)] at hi
    cases hi
  · exact .inr (hU.table?_of_chain (List.mem_cons_of_mem _ hu) h)

theorem Upcast.trans (hU : U.Closed) (h : U.Upcast t u) (h' : U.Upcast u w) : U.Upcast t w := by
  cases h with
  | refl => exact h'
  | null hv =>
    by_cases heq : u = w
    · exact heq ▸ .null hv
    · exact .null (h'.isValue_target hU.declared heq)
  | object hv =>
    cases h' with
    | refl | object => exact .object hv
    | interface _ h' =>
      rw [not_implements rfl (by simp [chain, decl, Builtin.object])] at h'
      cases h'
    | base _ h' => cases h'
  | interface hv h =>
    have hi := isInterface_of_implements h
    cases h' with
    | refl => exact .interface hv h
    | null => cases hi
    | object => exact .object hv
    | interface _ h' => exact .interface hv (hU.interfaces _ _ _ h h')
    | base _ h' =>
      rw [(hU.declared.bare_of_interface hi).1] at h'
      cases h'
  | base hv h =>
    cases h' with
    | refl => exact .base hv h
    | null => exact absurd h (hU.null t)
    | object => exact .object hv
    | interface _ h' => exact .interface hv (hU.declared.implements_of_lineage h h')
    | base _ h' =>
      rcases List.mem_cons.1 (hU.declared.allLaid.mem_chain_trans (List.mem_cons_of_mem _ h)
        (List.mem_cons_of_mem _ h')) with rfl | hw
      · exact .refl _
      · exact .base hv hw

end Universe

/-! ## What a check finds out -/

namespace Store

variable {U : Universe} {s : Store} {v : Value} {d t u : Ty}

/-- A reference is checked by its dynamic type, and null is of every type. -/
theorem isOf_reference (hv : U.isValue t = false) :
    s.isOf U v t = if v.isNil then some true else s.isInstance U v (some t) := by
  unfold Store.isOf
  unfold isValue at hv
  cases hs : U.storage t <;> simp_all [Storage.isValue]

/-- Where the dynamic type of a value leads, apart from itself and `object`. -/
def Leads (U : Universe) (v : Value) (d t : Ty) : Prop :=
  match v.datum with
  | .box _ => U.boxesTo d t = true
  | .delegate _ => U.isDelegate t = true ∧ U.signature d = U.signature t
  | _ => U.assignable d t = true

/-- A value that is not null is seen at its dynamic type, at `object`, and where its dynamic type leads. -/
theorem isInstance_eq_true_iff : s.isInstance U v (some t) = some true ↔
    s.dynamicType v = some t ∨ t = .object ∨ ∃ d, s.dynamicType v = some d ∧ Leads U v d t := by
  unfold isInstance Leads
  by_cases hfirst : s.dynamicType v = some t ∨ t = .object
  · have htrue : (decide (s.dynamicType v = some t) || decide (some t = some Ty.object)) = true := by
      simpa using hfirst
    simp only [htrue, if_true, true_iff]
    exact hfirst.imp_right .inl
  · have hfalse : (decide (s.dynamicType v = some t) || decide (some t = some Ty.object)) = false := by
      simpa using hfirst
    rw [← or_assoc, or_iff_right hfirst]
    simp only [hfalse, Bool.false_eq_true, if_false]
    cases s.dynamicType v with
    | none => cases v.datum <;> simp [boxesToOf, assignableOf]
    | some d =>
      cases hg : U.isDelegate t <;> cases v.datum <;>
        simp [boxesToOf, assignableOf, hg]

/-- Boxes hold values, and delegates have delegate types. -/
def Orderly (U : Universe) (s : Store) (v : Value) : Prop :=
  ∀ d, s.dynamicType v = some d →
    ((∃ loc, v.datum = .box loc) → U.isValue d = true) ∧
      ((∃ loc, v.datum = .delegate loc) → U.isDelegate d = true)

theorem upcast_delegate (hU : U.Declared) (ht : U.isDelegate t = true) (h : U.Upcast t u) : u = t ∨ u = .object := by
  obtain ⟨sig, hsig⟩ := Option.isSome_iff_exists.1 ht
  cases h with
  | refl => exact .inl rfl
  | null => cases ht
  | object => exact .inr rfl
  | interface _ h =>
    have hi := isInterface_of_implements h
    simp only [implements, hU.table?_of_delegate hsig, Bool.and_eq_true, Bool.or_eq_true,
      decide_eq_true_eq, Option.isSome_none, Bool.false_eq_true, or_false] at h
    exact .inl h.2.symm
  | base _ h =>
    rw [(hU.bare_of_delegate hsig).2] at h
    exact .inr (List.mem_singleton.1 h)

theorem isOf_of_upcast (hU : U.Closed) (hv : s.Orderly U v) (h : s.isOf U v t = some true)
    (hup : U.Upcast t u) : s.isOf U v u = some true := by
  by_cases heq : t = u
  · exact heq ▸ h
  have hu := hup.isValue_target hU.declared heq
  have ht : U.isValue t = false := by
    cases hup with
    | refl => exact absurd rfl heq
    | null => rfl
    | object ht | interface ht | base ht => exact ht
  rw [isOf_reference ht] at h
  rw [isOf_reference hu]
  split
  · rfl
  rename_i hnil
  rw [if_neg hnil, isInstance_eq_true_iff] at h
  rw [isInstance_eq_true_iff]
  by_cases hobject : u = .object
  · exact .inr (.inl hobject)
  -- the dynamic type leads to `t` or is `t`
  obtain ⟨d, hd, hlead⟩ : ∃ d, s.dynamicType v = some d ∧ (d = t ∨ Leads U v d t) := by
    rcases h with h | rfl | ⟨d, hd, h⟩
    · exact ⟨t, h, .inl rfl⟩
    · cases hup with
      | refl => exact absurd rfl heq
      | object => exact absurd rfl hobject
      | interface _ h =>
        rw [not_implements rfl (by simp [chain, decl, object])] at h
        cases h
      | base _ h => cases h
    · exact ⟨d, hd, .inr h⟩
  refine .inr (.inr ⟨d, hd, ?_⟩)
  obtain ⟨hbox, hdelegate⟩ := hv d hd
  unfold Leads at hlead ⊢
  split
  · -- a box holds a value, which is seen where its type is
    rename_i loc hdatum
    simp only [hdatum] at hlead
    have hvalue := hbox ⟨loc, hdatum⟩
    have hboxes : U.boxesTo d t = true := by
      rcases hlead with rfl | h
      · rw [ht] at hvalue
        cases hvalue
      · exact h
    have hne : d ≠ .null := by
      rintro rfl
      cases hvalue
    have hdu : d ≠ u := by
      rintro rfl
      rw [hu] at hvalue
      cases hvalue
    exact ((Universe.Is.of_boxesTo hU.declared hboxes).assignable hU hne (hup.assignable hU.declared)).boxesTo
      hU.declared hvalue hdu
  · -- a delegate has a delegate type, which leads to no other type but `object`
    rename_i loc hdatum
    simp only [hdatum] at hlead
    have ht' : U.isDelegate t = true := by
      rcases hlead with rfl | h
      · exact hdelegate ⟨loc, hdatum⟩
      · exact h.1
    rcases upcast_delegate hU.declared ht' hup with rfl | h
    · exact absurd rfl heq
    · exact absurd h hobject
  · rename_i hnotBox hnotDelegate
    have hdt : U.Upcast d t := by
      rcases hlead with rfl | h
      · exact .refl d
      · cases hdatum : v.datum with
        | box loc => exact absurd hdatum (hnotBox loc)
        | delegate loc => exact absurd hdatum (hnotDelegate loc)
        | _ =>
          simp only [hdatum] at h
          exact .of_assignable h
    exact (hdt.trans hU hup).assignable hU.declared

end Store

namespace Universe

variable {U : Universe}

/-! ## When chains hold -/

theorem Declared.null_not_mem_of_trans (hU : U.Declared)
    (htrans : ∀ t u w, U.assignable t u = true → U.assignable u w = true → U.assignable t w = true) (t : Ty) :
    .null ∉ (U.decl t).lineage := by
  intro hnull
  have hv : U.isValue t = false := by
    cases hv : U.isValue t with
    | false => rfl
    | true =>
      have hk : U.Knows t := by
        by_contra hk
        rw [decl_of_not_knows hk] at hnull
        cases hnull
      rw [hU.lineage_of_value hk hv] at hnull
      split at hnull <;> simp at hnull
  have hstart : U.assignable t .null = true := (Upcast.base hv hnull).assignable hU
  have hend : U.assignable .null (.array .object) = true := rfl
  have hbroken := Upcast.of_assignable (htrans t .null (.array .object) hstart hend)
  cases hbroken with
  | refl | null => simp [decl, array, null] at hnull
  | interface _ h => cases isInterface_of_implements h
  | base _ h => cases hU.class_of_lineage h

theorem Declared.implements_trans_of_trans (hU : U.Declared)
    (htrans : ∀ t u w, U.assignable t u = true → U.assignable u w = true → U.assignable t w = true)
    {t j i : Ty} (hv : U.isValue t = false) (htj : U.implements t j = true) (hji : U.implements j i = true) :
    U.implements t i = true := by
  have hi := isInterface_of_implements hji
  have hj := isValue_of_isInterface (isInterface_of_implements htj)
  have hti := Upcast.of_assignable (htrans t j i ((Upcast.interface hv htj).assignable hU)
    ((Upcast.interface hj hji).assignable hU))
  cases hti with
  | refl => simp [implements, hi]
  | null =>
    rw [not_implements rfl (by simp [chain, decl, null, object])] at htj
    cases htj
  | object => cases hi
  | interface _ h => exact h
  | base _ h =>
    rw [isInterface_of_class (hU.class_of_lineage h)] at hi
    cases hi

/-- So do values: a box shows which interfaces the type of its payload implements. -/
theorem Declared.implements_trans_of_isOf (hU : U.Declared)
    (hcheck : ∀ s v t u, Store.Orderly U s v → s.isOf U v t = some true → U.assignable t u = true →
      s.isOf U v u = some true)
    {t j i : Ty} (hv : U.isValue t = true) (htj : U.implements t j = true) (hji : U.implements j i = true) :
    U.implements t i = true := by
  let s : Store := { boxes := #[⟨some t, .null⟩] }
  let v : Value := ⟨some .object, .box 0⟩
  have hd : s.dynamicType v = some t := rfl
  have horderly : s.Orderly U v := by
    intro d hd'
    obtain rfl : t = d := Option.some.inj (hd.symm.trans hd')
    exact ⟨fun _ => hv, fun ⟨_, h⟩ => nomatch h⟩
  -- the box is seen at an interface exactly if its payload implements it
  have hseen : ∀ k, U.isInterface k = true → (s.isOf U v k = some true ↔ U.implements t k = true) := by
    intro k hk
    have hother : k ≠ .object ∧ k ≠ .valueType ∧ k ≠ .enumBase := by
      refine ⟨?_, ?_, ?_⟩ <;> (rintro rfl; cases hk)
    rw [Store.isOf_reference (isValue_of_isInterface hk), if_neg (by decide), Store.isInstance_eq_true_iff]
    simp [hd, hother, Store.Leads, v, boxesTo, hv, hk, implements]
  have hj := isInterface_of_implements htj
  have hup := (Upcast.interface (isValue_of_isInterface hj) hji).assignable hU
  exact (hseen i (isInterface_of_implements hji)).1 (hcheck s v j i horderly ((hseen j hj).2 htj) hup)

/-- **Assignability is a preorder, and what a check found out survives upcasts, exactly in closed
universes.** Checks speak of boxes that hold values and of delegates that have delegate types. -/
theorem assignable_preorder_iff (hU : U.Declared) : (∀ t, U.assignable t t = true) ∧
    (((∀ t u w, U.assignable t u = true → U.assignable u w = true → U.assignable t w = true) ∧
      ∀ s v t u, Store.Orderly U s v → s.isOf U v t = some true → U.assignable t u = true →
        s.isOf U v u = some true) ↔ U.Closed) := by
  refine ⟨fun t => (Upcast.refl t).assignable hU, fun ⟨htrans, hcheck⟩ => ⟨hU, ?_, ?_⟩, fun hc => ⟨?_, ?_⟩⟩
  · exact hU.null_not_mem_of_trans htrans
  · intro t j i htj hji
    cases hv : U.isValue t with
    | false => exact hU.implements_trans_of_trans htrans hv htj hji
    | true => exact hU.implements_trans_of_isOf hcheck hv htj hji
  · intro t u w htu huw
    exact ((Upcast.of_assignable htu).trans hc (.of_assignable huw)).assignable hU
  · intro s v t u hv h htu
    exact Store.isOf_of_upcast hc hv h (.of_assignable htu)

/-! ## A broken chain -/

/-- Declares types in order; a description that cannot be carried out declares nothing. -/
def declareAll (U : Universe) (specs : List TypeSpec) : Universe :=
  specs.foldl (fun U spec =>
    match U.declare spec with
    | .ok (_, U') => U'
    | .error _ => U) U

theorem Declared.declareAll (hU : U.Declared) (specs : List TypeSpec) : (U.declareAll specs).Declared := by
  induction specs generalizing U with
  | nil => exact hU
  | cons spec specs ih =>
    refine ih (U := _) ?_
    dsimp only
    split
    · rename_i h
      exact .declare hU h
    · exact hU

/-- Two interfaces, the second of which names the first, and a class that names the second. -/
def nestedInterfaces : Universe := declareAll {} [
  ⟨"Named", .interface, [.method "Name" [] (some .string) none]⟩,
  ⟨"Titled", .interface, [.method "Name" [] (some .string) none, .implements [some (.declared 0)]]⟩,
  ⟨"Book", .classType none, [.method "Name" [] (some .string) (some 0), .implements [some (.declared 1)]]⟩]

theorem nestedInterfaces_declared : nestedInterfaces.Declared := Declared.empty.declareAll _

theorem nestedInterfaces_not_closed : nestedInterfaces.Declared ∧
    (∀ t, nestedInterfaces.assignable t t = true) ∧ ¬nestedInterfaces.Closed := by
  obtain ⟨hrefl, hiff⟩ := assignable_preorder_iff nestedInterfaces_declared
  refine ⟨nestedInterfaces_declared, hrefl, fun hclosed => ?_⟩
  have hchain := (hiff.2 hclosed).1 (.declared 2) (.declared 1) (.declared 0) (by decide +kernel)
    (by decide +kernel)
  have hbroken : nestedInterfaces.assignable (.declared 2) (.declared 0) = false := by decide +kernel
  rw [hbroken] at hchain
  cases hchain

def bookshelf : Store := { objects := #[⟨some (.declared 2), #[]⟩] }

def book : Value := ⟨some (.declared 2), .object 0⟩

/-- **A chain that breaks**: a book can stand where the second interface is expected, and that one where the
first is, but the book cannot; a check accepts it at the second and not at the first. -/
theorem assignable_not_trans : nestedInterfaces.Declared ∧ bookshelf.Orderly nestedInterfaces book ∧
    nestedInterfaces.assignable (.declared 2) (.declared 1) = true ∧
    nestedInterfaces.assignable (.declared 1) (.declared 0) = true ∧
    nestedInterfaces.assignable (.declared 2) (.declared 0) = false ∧
    bookshelf.isOf nestedInterfaces book (.declared 1) = some true ∧
    bookshelf.isOf nestedInterfaces book (.declared 0) = some false := by
  refine ⟨nestedInterfaces_declared, fun d _ => ⟨fun ⟨_, h⟩ => (nomatch h), fun ⟨_, h⟩ => (nomatch h)⟩, ?_⟩
  decide +kernel

end Universe

end TreeMachine
