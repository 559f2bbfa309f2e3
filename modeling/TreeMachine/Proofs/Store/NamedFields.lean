import Mathlib.Data.Set.Function
import TreeMachine.Proofs.Store.Matching

/-!
# Fields by name and by place

A field is found by its name along the chain of a type, and its storage by its index. A description gives a new field
the index behind those of the bases, and storage is laid out from the root of the chain on. The two agree, because no
type declares a field under a name that it inherits (`Universe.Declared.named`):

* **`Universe.Declared.bijOn_index`**: the indexes of the fields of a type are the places of its storage.
* **`Store.FreshAt`**: fresh storage has a zero at each of these places.
* **`Store.setNamed_eq`**: writing a field by its name changes one place.

What is read after a write is equal to what was written, unless that includes the struct that it was written into:
`Store.setNamed_itself` writes a struct into its own field.
-/

open List

namespace TreeMachine

open Builtin Store

/-! ## Names -/

/-- The bases are known, and no two fields share a name, inherited ones included. -/
def TypeDecl.Named (U : Universe) (d : TypeDecl) : Prop :=
  (∀ c ∈ d.lineage, U.Knows c) ∧ ((d.layout U).map (·.name)).Nodup

variable {U U' : Universe}

theorem TypeDecl.Named.mono {d : TypeDecl} (hU : U'.Extends U) (h : d.Named U) : d.Named U' := by
  have hlayout : d.layout U' = d.layout U := by
    unfold TypeDecl.layout
    congr 1
    exact flatMap_congr fun c hc => by rw [hU.decl c (h.1 c (mem_reverse.1 hc))]
  exact ⟨fun c hc => hU.knows c (h.1 c hc), by rw [hlayout]; exact h.2⟩

namespace Draft

variable {d d' : Draft} {name : String}

theorem ne_of_field?_eq_none (h : d.field? U name = none) : ∀ f ∈ d.decl.layout U, f.name ≠ name := by
  unfold Draft.field? at h
  split at h
  · cases h
  · rename_i hown
    refine forall_mem_append.2 ⟨fun f hf => ?_, fun f hf => by simpa using find?_eq_none.1 hown f hf⟩
    obtain ⟨c, hc, hf⟩ := mem_flatMap.1 hf
    simpa using find?_eq_none.1 (findSome?_eq_none_iff.1 h c (mem_reverse.1 hc)) f hf

theorem named_adds (h : d.Adds U d') (hd : d.decl.Named U) : d'.decl.Named U := by
  cases h with
  | field f _ hfresh =>
    refine ⟨hd.1, ?_⟩
    have hlayout : TypeDecl.layout U { d.decl with fields := d.decl.fields ++ [f] } = d.decl.layout U ++ [f] :=
      (append_assoc _ _ _).symm
    rw [hlayout, map_append, nodup_append]
    refine ⟨hd.2, nodup_singleton _, fun x hx y hy => ?_⟩
    obtain ⟨g, hg, rfl⟩ := mem_map.1 hx
    obtain rfl := mem_singleton.1 hy
    exact ne_of_field?_eq_none hfresh g hg
  | _ => exact hd

theorem named_start {self : Ty} {kind : DraftKind} (hU : ∀ t, U.Knows t → (U.decl t).Named U)
    (h : Draft.start U self name kind = .ok d) : d.decl.Named U := by
  cases Draft.starts h with
  | struct => exact ⟨by simp [Universe.Knows], nodup_nil⟩
  | interface => exact ⟨forall_mem_nil _, nodup_nil⟩
  | classType hk =>
    refine ⟨forall_mem_cons.2 ⟨hk, (hU _ hk).1⟩, ?_⟩
    have hlayout := (hU _ hk).2
    rw [← Universe.layout_eq] at hlayout
    simpa [TypeDecl.layout, Universe.layout] using hlayout

end Draft

namespace Universe

variable {t : Ty} {name : String} {f : Field} {i : Nat}

theorem Declared.named (hU : U.Declared) (t : Ty) : (U.decl t).Named U := by
  by_cases hk : U.Knows t
  · refine hU.every (P := fun U _ d => d.Named U) TypeDecl.Named.mono (fun U t ht => ?_)
      (fun {U d} _ ih hd => ?_) t hk
    · cases t with
      | declared i => exact absurd rfl (ht i)
      | _ => exact ⟨by simp [decl, object, valueType, enumBase, null, scalar,
          string, comparable, disposable, array, Knows], nodup_nil⟩
    · cases hd with
      | described hstart hsteps hfinish =>
        have hnamed := Draft.adds_keep (P := fun d => d.decl.Named U) Draft.named_adds hsteps
          (Draft.named_start ih hstart)
        obtain ⟨placed, -, hfinish⟩ := Except.bind_eq_ok.1 hfinish
        obtain ⟨tables, -, hfinish⟩ := Except.bind_eq_ok.1 hfinish
        cases hfinish
        exact hnamed
      | enumeration => exact ⟨by simp [Knows], nodup_nil⟩
      | delegate => exact ⟨by simp [Knows], nodup_nil⟩
  · rw [decl_of_not_knows hk]
    exact ⟨forall_mem_nil _, nodup_nil⟩

theorem Declared.nodup_names (hU : U.Declared) (t : Ty) : ((U.layout t).map (·.name)).Nodup := by
  rw [layout_eq]
  exact (hU.named t).2

theorem Declared.field?_eq_some_iff (hU : U.Declared) : U.field? t name = some f ↔ f ∈ U.layout t ∧ f.name = name := by
  have hfound : ∀ {f}, U.field? t name = some f → f ∈ U.layout t ∧ f.name = name := by
    intro f h
    obtain ⟨c, hc, hf⟩ := exists_of_findSome?_eq_some h
    exact ⟨mem_flatMap.2 ⟨c, mem_reverse.2 hc, mem_of_find?_eq_some hf⟩,
      by simpa using find?_some hf⟩
  refine ⟨hfound, fun h => ?_⟩
  obtain ⟨hf, hname⟩ := h
  obtain ⟨c, hc, hfc⟩ := mem_flatMap.1 hf
  cases hsome : U.field? t name with
  | none =>
    have hnone := findSome?_eq_none_iff.1 hsome c (mem_reverse.1 hc)
    simpa [hname] using find?_eq_none.1 hnone f hfc
  | some g =>
    obtain ⟨hg, hgname⟩ := hfound hsome
    rw [inj_on_of_nodup_map (hU.nodup_names t) hg hf (hgname.trans hname.symm)]

theorem Declared.getElem?_layout (hU : U.Declared) : (U.layout t)[i]? = some f ↔ f ∈ U.layout t ∧ f.index = i := by
  have hat : ∀ {f}, f ∈ U.layout t → (U.layout t)[f.index]? = some f := fun hf =>
    hU.layout_of_field? (hU.field?_eq_some_iff.2 ⟨hf, rfl⟩)
  constructor
  · intro hf
    refine ⟨List.mem_of_getElem? hf, ?_⟩
    have hindex := hat (List.mem_of_getElem? hf)
    exact (List.getElem?_inj (List.getElem?_eq_some_iff.1 hindex).1 (hU.nodup_names t).of_map).1
      (hindex.trans hf.symm)
  · rintro ⟨hf, rfl⟩
    exact hat hf

theorem fieldCount_eq (U : Universe) (t : Ty) : U.fieldCount t = (U.layout t).length := by
  rw [fieldCount, layout, length_flatMap, map_reverse, sum_reverse]
  rfl

theorem Declared.bijOn_index (hU : U.Declared) (t : Ty) :
    Set.BijOn Field.index {f | ∃ name, U.field? t name = some f} (Set.Iio (U.fieldCount t)) := by
  refine ⟨?_, ?_, ?_⟩
  · rintro f ⟨name, hf⟩
    rw [Set.mem_Iio, fieldCount_eq]
    exact (List.getElem?_eq_some_iff.1 (hU.layout_of_field? hf)).1
  · rintro f ⟨name, hf⟩ g ⟨name', hg⟩ (heq : f.index = g.index)
    exact Option.some.inj ((hU.layout_of_field? hf).symm.trans (heq ▸ hU.layout_of_field? hg))
  · intro i hi
    rw [Set.mem_Iio, fieldCount_eq] at hi
    obtain ⟨hf, hindex⟩ := hU.getElem?_layout.1 (List.getElem?_eq_getElem hi)
    exact ⟨_, ⟨_, hU.field?_eq_some_iff.2 ⟨hf, rfl⟩⟩, hindex⟩

theorem Declared.field?_of_base (hU : U.Declared) {b : Ty} (hb : b ∈ U.chain t) (h : U.field? b name = some f) :
    U.field? t name = some f := by
  obtain ⟨hf, hname⟩ := hU.field?_eq_some_iff.1 h
  exact hU.field?_eq_some_iff.2 ⟨(hU.allLaid.layout_prefix hb).subset hf, hname⟩

end Universe

/-! ## Fresh storage -/

namespace Store

variable {s s' t u : Store} {v w x o : Value} {r : Record} {f : Field} {loc : Loc} {name : String} {i : Nat}

theorem Grows.zeroAt (U : Universe) (n : Nat) (t : Ty) (s : Store) : s.Grows (Store.zeroAt U n t s).2 := by
  induction n generalizing t s with
  | zero => exact .refl s
  | succ n ih =>
    unfold Store.zeroAt
    split
    · exact .refl s
    · exact (Grows.makeAll (fun (f : Field) s => ih f.type s) _ s).trans ⟨#[_], rfl⟩
    · exact .refl s
    · exact .refl s

/-- `z` is a zero of type `t` that was made after `s`, with storage that is still there in `s'`. -/
def IsZero (U : Universe) (s s' : Store) (t : Ty) (z : Value) : Prop :=
  ∃ s₀, s.Grows s₀ ∧ z = (zero U t s₀).1 ∧
    ∀ (loc : Loc) (r : Record), (zero U t s₀).2.aggregates[loc]? = some r → s'.aggregates[loc]? = some r

/-- The value leads to storage for type `t` with a zero at the place of each field. -/
def FreshAt (U : Universe) (t : Ty) (s : Store) (v : Value) (s' : Store) : Prop :=
  ∃ r, s'.record? v = some r ∧ r.type = some t ∧ r.fields.size = U.fieldCount t ∧
    ∀ name f, U.field? t name = some f → ∃ z, r.fields[f.index]? = some z ∧ IsZero U s s' f.type z

theorem isZero_makeAll (U : Universe) (fs : List Field) (s : Store) :
    List.Forall₂ (fun f z => IsZero U s (makeAll (fun (f : Field) s => zero U f.type s) fs s).2 f.type z) fs
      (makeAll (fun (f : Field) s => zero U f.type s) fs s).1.toList := by
  refine forall₂_makeAll (R := fun t (f : Field) z => IsZero U s t f.type z) (fun f s => Grows.zeroAt U _ f.type s) ?_
    fun f _ s' hs' => ⟨s', hs', rfl, fun _ _ h => h⟩
  rintro t t' f z ⟨s₀, hs₀, hz, hkeep⟩ hgrows
  exact ⟨s₀, hs₀, hz, fun loc r hr => hgrows.aggregates (hkeep loc r hr)⟩

theorem freshAt_of_makeAll (hU : U.Declared) {t : Ty}
    (hrecord : s'.record? v = some ⟨some t, (makeAll (fun (f : Field) s => zero U f.type s) (U.layout t) s).1⟩)
    (hgrows : ∀ (loc : Loc) (r : Record),
      (makeAll (fun (f : Field) s => zero U f.type s) (U.layout t) s).2.aggregates[loc]? = some r →
        s'.aggregates[loc]? = some r) : FreshAt U t s v s' := by
  obtain ⟨hlength, hat⟩ := List.forall₂_iff_get.1 (isZero_makeAll U (U.layout t) s)
  refine ⟨_, hrecord, rfl, ?_, fun name f hf => ?_⟩
  · rw [Universe.fieldCount_eq, hlength, Array.length_toList]
  · obtain ⟨hi, hfi⟩ := List.getElem?_eq_some_iff.1 (hU.layout_of_field? hf)
    obtain ⟨s₀, hs₀, hz, hzero⟩ := hat f.index hi (hlength ▸ hi)
    simp only [List.get_eq_getElem, hfi] at hz hzero
    refine ⟨_, ?_, s₀, hs₀, hz, fun loc r hr => hgrows loc r (hzero loc r hr)⟩
    rw [← Array.getElem?_toList]
    exact List.getElem?_eq_getElem _

theorem freshAt_newObject (hU : U.Declared) (t : Ty) (s : Store) :
    FreshAt U t s (newObject U (some t) s).1 (newObject U (some t) s).2 :=
  freshAt_of_makeAll hU Array.getElem?_push_size fun _ _ h => h

theorem freshAt_newAggregate (hU : U.Declared) {t : Ty} (ht : U.isAggregate t = true) (s : Store) :
    FreshAt U t s (newAggregate U t s).1 (newAggregate U t s).2 := by
  refine freshAt_of_makeAll hU ?_ ?_
  · rw [hU.layout_of_aggregate ht]
    exact Array.getElem?_push_size
  · rw [hU.layout_of_aggregate ht]
    exact fun loc r hr => Grows.aggregates ⟨#[_], rfl⟩ hr

/-! ## Writes by name -/

theorem setNamed_eq (hr : s.record? o = some r) (hf : r.type.bind (U.field? · name) = some f)
    (hi : f.index < r.fields.size) :
    setNamed U o name v s = some ((clone v s).2.setFieldOf o.datum f.index (clone v s).1) := by
  unfold setNamed
  simp [hr, hf, hi]

theorem record?_grows (h : s.Grows t) (hr : s.record? o = some r) : t.record? o = some r := by
  unfold record? at hr ⊢
  cases hd : o.datum with
  | aggregate loc =>
    rw [hd] at hr
    exact h.aggregates hr
  | object loc =>
    rw [hd] at hr
    obtain ⟨rs, rfl⟩ := h
    exact hr
  | _ =>
    rw [hd] at hr
    cases hr

theorem record?_setFieldOf (hr : s.record? o = some r) :
    (s.setFieldOf o.datum i x).record? o = some { r with fields := r.fields.setIfInBounds i x } := by
  unfold record? at hr ⊢
  cases hd : o.datum with
  | aggregate loc =>
    rw [hd] at hr
    exact aggregates_setFieldOf hr
  | object loc =>
    rw [hd] at hr
    show (s.objects.modify loc _)[loc]? = _
    rw [Array.getElem?_modify, if_pos rfl, show s.objects[loc]? = some r from hr]
    rfl
  | _ =>
    rw [hd] at hr
    cases hr

theorem record?_setFieldOf_of_ne (h : w.datum ≠ o.datum) : (s.setFieldOf o.datum i x).record? w = s.record? w := by
  unfold record?
  cases hw : w.datum with
  | aggregate loc' =>
    cases ho : o.datum with
    | aggregate loc => exact aggregates_setFieldOf_of_ne fun heq => h (by rw [hw, ho, heq])
    | _ => rfl
  | object loc' =>
    cases ho : o.datum with
    | object loc =>
      show (s.objects.modify loc _)[loc']? = _
      rw [Array.getElem?_modify, if_neg fun heq => h (by rw [hw, ho, heq])]
    | _ => rfl
  | _ => rfl

/-- A write to an instance leaves structs alone, and a write to a struct the others. -/
theorem aggregates_setFieldOf_elsewhere {d : Datum} (h : d ≠ .aggregate loc) :
    (s.setFieldOf d i x).aggregates[loc]? = s.aggregates[loc]? := by
  cases d with
  | aggregate loc' => exact aggregates_setFieldOf_of_ne fun heq => h (heq ▸ rfl)
  | _ => rfl

theorem boxes_setFieldOf (s : Store) (d : Datum) (i : Nat) (x : Value) : (s.setFieldOf d i x).boxes = s.boxes := by
  cases d <;> rfl

theorem getNamed_eq (hr : s.record? o = some r) (hf : r.type.bind (U.field? · name) = some f) :
    s.getNamed U o name = r.fields[f.index]? := by
  unfold getNamed
  simp [hr, hf]

/-! ## What is written is read -/

/-- The struct at the location is in the value, also in its boxes. -/
inductive Contains (s : Store) : Value → Loc → Prop
  | self {v : Value} {loc : Loc} : v.datum = .aggregate loc → Contains s v loc
  | field {v f : Value} {top loc : Loc} {r : Record} : v.datum = .aggregate top → s.aggregates[top]? = some r →
    f ∈ r.fields → Contains s f loc → Contains s v loc
  | box {v p : Value} {b loc : Loc} : v.datum = .box b → s.boxes[b]? = some p → Contains s p loc → Contains s v loc

/-- What is in a value is what it was where nothing in it was changed. -/
theorem Whole.kept (h : s.Whole v) (hkeep : ∀ loc, s.Contains v loc → u.aggregates[loc]? = s.aggregates[loc]?)
    (hboxes : u.boxes = s.boxes) : u.Whole v := by
  induction h with
  | leaf hne hbox => exact .leaf hne hbox
  | box hv hp _ ih => exact .box hv (hboxes ▸ hp) (ih fun loc hloc => hkeep loc (.box hv hp hloc))
  | struct hv hr _ ih =>
    exact .struct hv ((hkeep _ (.self hv)).trans hr) fun f hf => ih f hf fun loc hloc => hkeep loc
      (.field hv hr hf hloc)

theorem Copied.kept {N : Nat} (h : s.Copied t v w) (hv : s.Whole v) (hw : t.SitedFrom N w)
    (hkeep : ∀ loc, s.Contains v loc → u.aggregates[loc]? = s.aggregates[loc]?)
    (hnew : ∀ loc, N ≤ loc → u.aggregates[loc]? = t.aggregates[loc]?) : u.Copied u v w := by
  induction hv generalizing w with
  | leaf hne =>
    rw [h.eq_of_ne hne]
    exact .leaf hne
  | box hb =>
    rw [h.eq_of_ne (Value.ne_aggregate_of_box hb)]
    exact .leaf (Value.ne_aggregate_of_box hb)
  | @struct v loc r hv hr _ ih =>
    obtain ⟨loc', r', rfl, hr', htype, hsize, hfields⟩ := h.of_struct hv hr
    obtain ⟨type, d⟩ := v
    subst hv
    cases hw with
    | leaf hne => exact absurd rfl (hne loc')
    | struct hloc' hN hr'' hsited =>
      cases hloc'
      obtain rfl := Option.some.inj (hr'.symm.trans hr'')
      refine .struct ((hkeep loc (.self rfl)).trans hr) ((hnew loc' hN).trans hr') htype hsize fun i x y hx hy => ?_
      have hmem := Array.mem_of_getElem? hx
      exact ih x hmem (hfields i x y hx hy) (hsited y (Array.mem_of_getElem? hy))
        fun loc hloc => hkeep loc (.field rfl hr hmem hloc)

/-- The copy of a value is equal to it, also later, where neither was changed. -/
theorem Whole.equal_clone (h : s.Whole v) (hkeep : ∀ loc, s.Contains v loc → u.aggregates[loc]? = s.aggregates[loc]?)
    (hboxes : u.boxes = s.boxes)
    (hnew : ∀ loc, s.aggregates.size ≤ loc → u.aggregates[loc]? = (clone v s).2.aggregates[loc]?) :
    u.equal (clone v s).1 v = true :=
  (h.kept hkeep hboxes).equal_copy
    ((copied_clone h.sited.nests).kept h (sitedFrom_clone h.sited) hkeep hnew) (.refl u)

theorem Contains.exists (h : s.Whole v) (hloc : s.Contains v loc) : ∃ r, s.aggregates[loc]? = some r := by
  induction h with
  | leaf hne hbox =>
    cases hloc with
    | self hv => exact absurd hv (hne _)
    | field hv => exact absurd hv (hne _)
    | box hv => exact absurd hv (hbox _)
  | box hv hp _ ih =>
    cases hloc with
    | self hv' => exact absurd hv' (Value.ne_aggregate_of_box hv _)
    | field hv' => exact absurd hv' (Value.ne_aggregate_of_box hv _)
    | box hv' hp' hloc =>
      cases hv.symm.trans hv'
      cases hp.symm.trans hp'
      exact ih hloc
  | struct hv hr _ ih =>
    cases hloc with
    | self hv' =>
      cases hv.symm.trans hv'
      exact ⟨_, hr⟩
    | field hv' hr' hf hloc =>
      cases hv.symm.trans hv'
      cases hr.symm.trans hr'
      exact ih _ hf hloc
    | box hv' => exact absurd hv' (Value.ne_box_of_aggregate hv _)

/-- What a write to a field of `o`, an object of type `t`, does. -/
structure Written (U : Universe) (t : Ty) (o : Value) (name : String) (v : Value) (s s' : Store) : Prop where
  record : ∃ r, s'.record? o = some r ∧ r.type = some t ∧ r.fields.size = U.fieldCount t
  /-- A copy of the value is read, which is equal to it, unless the value contains the struct. -/
  read : ∃ c, s'.getNamed U o name = some c ∧
    (s.Whole v → (∀ loc, o.datum = .aggregate loc → ¬s.Contains v loc) → s'.equal c v = true)
  others : ∀ name', name' ≠ name → s'.getNamed U o name' = s.getNamed U o name'
  elsewhere : ∀ w r, w.datum ≠ o.datum → s.record? w = some r → s'.record? w = some r

theorem written_setFieldOf (hU : U.Declared) {t : Ty} (hr : s.record? o = some r) (htype : r.type = some t)
    (hsize : r.fields.size = U.fieldCount t) (hf : U.field? t name = some f) :
    Written U t o name v s ((clone v s).2.setFieldOf o.datum f.index (clone v s).1) := by
  have hfield : ∀ {name f}, U.field? t name = some f → r.type.bind (U.field? · name) = some f := fun h => by
    rw [htype]
    exact h
  have hlt : f.index < r.fields.size := hsize ▸ (hU.bijOn_index t).mapsTo ⟨name, hf⟩
  have hrecord := record?_setFieldOf (i := f.index) (x := (clone v s).1) (record?_grows (.clone v s) hr)
  refine ⟨⟨_, hrecord, htype, by rw [Array.size_setIfInBounds, hsize]⟩, ⟨(clone v s).1, ?_, fun hv hout => ?_⟩,
    fun name' hname => ?_, fun w q hne hq => ?_⟩
  · rw [getNamed_eq hrecord (hfield hf), Array.getElem?_setIfInBounds_self_of_lt hlt]
  · refine hv.equal_clone (fun loc hloc => ?_) ?_ fun loc hloc => aggregates_setFieldOf_elsewhere fun ho => ?_
    · obtain ⟨q, hq⟩ := hloc.exists hv
      rw [aggregates_setFieldOf_elsewhere fun ho => hout loc ho hloc, hq]
      exact (Grows.clone v s).aggregates hq
    · rw [boxes_setFieldOf]
      obtain ⟨rs, hrs⟩ := Grows.clone v s
      rw [hrs]
    · -- the struct that is written was there before
      unfold record? at hr
      rw [ho] at hr
      exact Nat.not_lt.2 hloc (Array.getElem?_eq_some_iff.1 hr).1
  · cases hg : U.field? t name' with
    | none =>
      unfold getNamed
      simp [hrecord, hr, htype, hg]
    | some g =>
      have hindex : f.index ≠ g.index := by
        intro heq
        obtain rfl := (hU.bijOn_index t).injOn ⟨name, hf⟩ ⟨name', hg⟩ heq
        exact hname ((hU.field?_eq_some_iff.1 hg).2.symm.trans (hU.field?_eq_some_iff.1 hf).2)
      rw [getNamed_eq hrecord (hfield hg), getNamed_eq hr (hfield hg), Array.getElem?_setIfInBounds_ne hindex]
  · rw [record?_setFieldOf_of_ne hne]
    exact record?_grows (.clone v s) hq

end Store

/-- **Fields and storage agree.** The fields of a type have the indexes of its storage, the same ones below it. Fresh
storage has their zeros there, and a write by name changes what is read by that name and nothing else. -/
theorem Universe.Declared.fields_stored (hU : U.Declared) (t : Ty) :
    Set.BijOn Field.index {f | ∃ name, U.field? t name = some f} (Set.Iio (U.fieldCount t)) ∧
    (∀ b ∈ U.chain t, ∀ name f, U.field? b name = some f → U.field? t name = some f) ∧
    (∀ s, Store.FreshAt U t s (newObject U (some t) s).1 (newObject U (some t) s).2) ∧
    (U.isAggregate t = true → ∀ s, Store.FreshAt U t s (newAggregate U t s).1 (newAggregate U t s).2) ∧
    ∀ (s : Store) (o : Value) (r : Record), s.record? o = some r → r.type = some t →
      r.fields.size = U.fieldCount t → ∀ name f, U.field? t name = some f → ∀ v,
        ∃ s', setNamed U o name v s = some s' ∧ Store.Written U t o name v s s' := by
  refine ⟨hU.bijOn_index t, fun b hb name f hf => hU.field?_of_base hb hf, freshAt_newObject hU t,
    fun ht s => freshAt_newAggregate hU ht s, fun s o r hr htype hsize name f hf v => ?_⟩
  have hlt : f.index < r.fields.size := hsize ▸ (hU.bijOn_index t).mapsTo ⟨name, hf⟩
  exact ⟨_, setNamed_eq hr (by rw [htype]; exact hf) hlt, written_setFieldOf hU hr htype hsize hf⟩

namespace Store

/-! ## A manager, and a struct in its own field -/

/-- An employee has a name. A manager is one with a budget and an office, and a slot holds anything. -/
def staff : Universe := Universe.declareAll {} [
  ⟨"Employee", .classType none, [.field "name" (some .string)]⟩,
  ⟨"Manager", .classType (some (.declared 0)), [.field "budget" (some .int64), .autoProperty "office" (some .int32)]⟩,
  ⟨"Slot", .struct, [.field "content" (some .object)]⟩]

/-- The fields of a manager are those of an employee and its own, and a new name is read as it was written. -/
theorem fields_stored_manager : staff.fieldCount (.declared 1) = 3 ∧
    ∃ s', setNamed staff ⟨some (.declared 1), .object 0⟩ "name" (.ofString "Ada")
        { objects := #[⟨some (.declared 1), #[.nilOf (some .string), .ofInt64 0, .ofInt32 0]⟩] } = some s' ∧
      Written staff (.declared 1) ⟨some (.declared 1), .object 0⟩ "name" (.ofString "Ada")
        { objects := #[⟨some (.declared 1), #[.nilOf (some .string), .ofInt64 0, .ofInt32 0]⟩] } s' :=
  ⟨by decide +kernel, (Universe.Declared.fields_stored (Universe.Declared.empty.declareAll _) (.declared 1)).2.2.2.2
    _ _ _ rfl rfl (by decide +kernel) "name" ⟨"name", .string, .declared 0, 0⟩ (by decide +kernel) _⟩

/-- **A struct in its own field.** What is written is a copy of the struct as it was before, so what is read is not
equal to the struct with the copy in it. -/
theorem setNamed_itself : staff.Declared ∧ staff.isAggregate (.declared 2) = true ∧
    staff.field? (.declared 2) "content" = some ⟨"content", .object, .declared 2, 0⟩ ∧
    (setNamed staff (newAggregate staff (.declared 2) {}).1 "content" (newAggregate staff (.declared 2) {}).1
      (newAggregate staff (.declared 2) {}).2).bind (fun s' =>
        (s'.getNamed staff (newAggregate staff (.declared 2) {}).1 "content").map fun c =>
          s'.equal c (newAggregate staff (.declared 2) {}).1) = some false :=
  ⟨Universe.Declared.empty.declareAll _, by decide +kernel⟩

end Store

end TreeMachine
