import Mathlib.Data.Set.Lattice
import Mathlib.Data.Set.Piecewise
import Mathlib.Order.CompletePartialOrder
import Mathlib.Order.Interval.Set.LinearOrder
import TreeMachine.Proofs.Store.NamedFields

/-!
# A value and its copy are separate

A copy moves the structs of a value to new locations and shares all else with it. From then on the two have storage of
their own: what is written to fields of the one is not seen through the other, because a write puts only what is new
into the structs of a value.

* **`Store.Tree`**: no struct of the value is in two places.
* **`Store.relocates_cloneAt`**: each struct of a tree has one new location.
* **`Store.Beside.fieldWrite`** is the step and **`Store.reads_of_writes`** the run: writes to the fields of a value
  keep what another value holds.
-/

open Array

namespace TreeMachine

def Value.relocate (φ : Loc → Loc) (v : Value) : Value :=
  match v.datum with
  | .aggregate loc => ⟨v.type, .aggregate (φ loc)⟩
  | _ => v

def Record.relocate (φ : Loc → Loc) (r : Record) : Record := { r with fields := r.fields.map (·.relocate φ) }

theorem Value.relocate_of_ne {v : Value} {φ : Loc → Loc} (h : ∀ loc, v.datum ≠ .aggregate loc) : v.relocate φ = v := by
  unfold relocate
  split
  · exact absurd ‹_› (h _)
  · rfl

theorem Value.relocate_congr {v : Value} {φ ψ : Loc → Loc} (h : ∀ loc, v.datum = .aggregate loc → φ loc = ψ loc) :
    v.relocate φ = v.relocate ψ := by
  unfold relocate
  split
  · rw [h _ ‹_›]
  · rfl

namespace Store

variable {s s' t t' u : Store} {v w x o f : Value} {vs ws vs' ws' : List Value} {r : Record} {loc l : Loc}
  {φ ψ : Loc → Loc} {n N M L : Nat} {U : Universe}

/-! ## Trees -/

/-- What the value holds is there, and no struct is in two of the fields of another. -/
inductive Tree (s : Store) : Value → Prop
  | leaf {v : Value} : (∀ loc, v.datum ≠ .aggregate loc) → Tree s v
  | struct {v : Value} {loc : Loc} {r : Record} : v.datum = .aggregate loc → s.aggregates[loc]? = some r →
    (∀ f ∈ r.fields, Tree s f) → r.fields.toList.Pairwise s.Apart → Tree s v

theorem Tree.sited (h : s.Tree v) : s.Sited v := by
  induction h with
  | leaf hne => exact .leaf hne
  | struct hv hr _ _ ih => exact .struct hv hr ih

theorem Inlines.trans (h : s.Inlines v w) (h' : s.Inlines w x) : s.Inlines v x := by
  induction h with
  | self => exact h'
  | field hv hr hf _ ih => exact .field hv hr hf (ih h')

theorem Occupies.below (h : s.Occupies v loc) (hr : s.aggregates[loc]? = some r) (hf : f ∈ r.fields)
    (hl : s.Occupies f l) : s.Occupies v l := by
  obtain ⟨x, hx, hd⟩ := h
  obtain ⟨y, hy, hl⟩ := hl
  exact ⟨y, hx.trans (.field hd hr hf hy), hl⟩

def held (s : Store) (vs : List Value) : Set Loc := {loc | ∃ v ∈ vs, s.Occupies v loc}

theorem held_append (s : Store) (vs ws : List Value) : s.held (vs ++ ws) = s.held vs ∪ s.held ws := by
  ext loc
  simp [held, or_and_right, exists_or]

theorem held_singleton (s : Store) (v : Value) : s.held [v] = {loc | s.Occupies v loc} := by
  simp [held]

theorem occupies_struct (hv : v.datum = .aggregate loc) (hr : s.aggregates[loc]? = some r) :
    s.Occupies v l ↔ l = loc ∨ l ∈ s.held r.fields.toList := by
  constructor
  · rintro ⟨x, hx, hd⟩
    cases hx with
    | self => exact .inl (Datum.aggregate.inj (hd.symm.trans hv))
    | field hv' hr' hf hx =>
      cases hv.symm.trans hv'
      cases hr.symm.trans hr'
      exact .inr ⟨_, mem_toList_iff.2 hf, x, hx, hd⟩
  · rintro (rfl | ⟨f, hf, x, hx, hd⟩)
    · exact ⟨v, .self v, hv⟩
    · exact ⟨x, .field hv hr (mem_toList_iff.1 hf) hx, hd⟩

/-! ## New locations -/

/-- The values `ws` of the store `t` are the values `vs` of `s`, with their structs moved to the locations from `N` to
`M`. -/
structure Relocates (s t : Store) (N M : Nat) (φ : Loc → Loc) (vs ws : List Value) : Prop where
  values : ws = vs.map (·.relocate φ)
  bijOn : Set.BijOn φ (s.held vs) (Set.Ico N M)
  records : ∀ loc ∈ s.held vs, ∀ r, s.aggregates[loc]? = some r → t.aggregates[φ loc]? = some (r.relocate φ)

namespace Relocates

theorem grows (h : s.Relocates t N M φ vs ws) (ht : t.Grows t') : s.Relocates t' N M φ vs ws :=
  ⟨h.values, h.bijOn, fun loc hloc r hr => ht.aggregates (h.records loc hloc r hr)⟩

theorem congr (h : s.Relocates t N M φ vs ws) (heq : Set.EqOn φ ψ (s.held vs)) : s.Relocates t N M ψ vs ws := by
  refine ⟨?_, h.bijOn.congr heq, fun loc hloc r hr => ?_⟩
  · rw [h.values]
    exact List.map_congr_left fun v hv => Value.relocate_congr fun loc hd => heq ⟨v, hv, v, .self v, hd⟩
  · have hrecord : r.relocate φ = r.relocate ψ := by
      obtain ⟨v, hv, hocc⟩ := hloc
      unfold Record.relocate
      congr 1
      exact map_congr_left fun f hf => Value.relocate_congr fun l hd =>
        heq ⟨v, hv, hocc.below hr hf ⟨f, .self f, hd⟩⟩
    rw [← heq hloc, ← hrecord]
    exact h.records loc hloc r hr

theorem append (h : s.Relocates t N M φ vs ws) (h' : s.Relocates t M L ψ vs' ws') (hN : N ≤ M) (hM : M ≤ L)
    (hapart : Disjoint (s.held vs) (s.held vs')) : ∃ χ, s.Relocates t N L χ (vs ++ vs') (ws ++ ws') := by
  classical
  refine ⟨(s.held vs).piecewise φ ψ, ?_⟩
  have hleft := h.congr (Set.piecewise_eqOn (s.held vs) φ ψ).symm
  have hright := h'.congr ((Set.piecewise_eqOn_compl (s.held vs) φ ψ).symm.mono hapart.symm.subset_compl_right)
  generalize (s.held vs).piecewise φ ψ = χ at hleft hright
  refine ⟨by rw [hleft.values, hright.values, List.map_append], ?_, ?_⟩
  · rw [held_append, ← Set.Ico_union_Ico_eq_Ico hN hM]
    refine hleft.bijOn.union hright.bijOn
      ((Set.injOn_union hapart).2 ⟨hleft.bijOn.injOn, hright.bijOn.injOn, fun a ha b hb heq => ?_⟩)
    have hlt := (hleft.bijOn.mapsTo ha).2
    exact Nat.not_lt.2 (hright.bijOn.mapsTo hb).1 (heq ▸ hlt)
  · rw [held_append]
    rintro loc (hloc | hloc)
    · exact hleft.records loc hloc
    · exact hright.records loc hloc

theorem of_ne (t : Store) (N : Nat) (φ : Loc → Loc) (h : ∀ loc, v.datum ≠ .aggregate loc) :
    s.Relocates t N N φ [v] [v] := by
  have hheld : s.held [v] = ∅ := by
    rw [held_singleton]
    refine Set.eq_empty_of_forall_notMem fun loc hloc => ?_
    obtain ⟨x, hx, hd⟩ := hloc
    exact h loc (hx.eq_of_ne h ▸ hd)
  refine ⟨by rw [List.map_singleton, Value.relocate_of_ne h], ?_, by simp [hheld]⟩
  rw [hheld, Set.Ico_self]
  exact Set.bijOn_empty φ

theorem struct (h : s.Relocates t N t.aggregates.size φ r.fields.toList ws) (hv : v.datum = .aggregate loc)
    (hr : s.aggregates[loc]? = some r) (hout : loc ∉ s.held r.fields.toList) (hN : N ≤ t.aggregates.size) :
    ∃ χ, s.Relocates (t.addAggregate ⟨r.type, ws.toArray⟩).2 N (t.aggregates.size + 1) χ [v]
      [⟨v.type, .aggregate t.aggregates.size⟩] := by
  classical
  refine ⟨Function.update φ loc t.aggregates.size, ?_⟩
  have hsame : Set.EqOn φ (Function.update φ loc t.aggregates.size) (s.held r.fields.toList) := fun l hl =>
    (Function.update_of_ne (fun heq : l = loc => hout (heq ▸ hl)) _ _).symm
  have hself : Function.update φ loc t.aggregates.size loc = t.aggregates.size := Function.update_self _ _ _
  have hfields := h.congr hsame
  generalize Function.update φ loc t.aggregates.size = χ at hself hfields
  have hheld : s.held [v] = insert loc (s.held r.fields.toList) := by
    rw [held_singleton]
    exact Set.ext fun l => occupies_struct hv hr
  refine ⟨?_, ?_, ?_⟩
  · simp only [List.map_singleton, Value.relocate, hv, hself]
  · have hico : Set.Ico N (t.aggregates.size + 1) = insert (χ loc) (Set.Ico N t.aggregates.size) := by
      ext l
      simp only [hself, Set.mem_Ico, Set.mem_insert_iff]
      omega
    rw [hheld, hico]
    refine hfields.bijOn.insert ?_
    rw [hself]
    exact Set.right_notMem_Ico
  · rw [hheld]
    rintro l (rfl | hl) q hq
    · cases hr.symm.trans hq
      rw [hself]
      refine getElem?_push_size.trans ?_
      rw [hfields.values, ← toList_map, toArray_toList]
      rfl
    · exact (hfields.grows ⟨#[_], rfl⟩).records l hl q hq

end Relocates

theorem relocates_makeAll (hmake : ∀ f ∈ vs, ∀ t : Store, ∃ φ, s.Relocates (cloneAt s n f t).2 t.aggregates.size
      (cloneAt s n f t).2.aggregates.size φ [f] [(cloneAt s n f t).1]) (hapart : vs.Pairwise s.Apart) (t : Store) :
    ∃ φ, s.Relocates (makeAll (fun f t => cloneAt s n f t) vs t).2 t.aggregates.size
      (makeAll (fun f t => cloneAt s n f t) vs t).2.aggregates.size φ vs
      (makeAll (fun f t => cloneAt s n f t) vs t).1.toList := by
  induction vs using List.reverseRecOn with
  | nil =>
    have hheld : s.held [] = ∅ := by simp [held]
    refine ⟨id, rfl, ?_, by simp [hheld]⟩
    rw [hheld]
    show Set.BijOn id ∅ (Set.Ico t.aggregates.size t.aggregates.size)
    rw [Set.Ico_self]
    exact Set.bijOn_empty id
  | append_singleton vs f ih =>
    obtain ⟨hvs, -, hout⟩ := List.pairwise_append.1 hapart
    obtain ⟨φ, hφ⟩ := ih (fun g hg => hmake g (List.mem_append_left _ hg)) hvs
    have hgrows := Expands.of_grows (.makeAll (fun f t => Grows.cloneAt s n f t) vs t)
    rw [makeAll_concat, toList_push]
    generalize makeAll (fun f t => cloneAt s n f t) vs t = p at hφ hgrows
    obtain ⟨ψ, hψ⟩ := hmake f (List.mem_append_right _ (List.mem_singleton.2 rfl)) p.2
    have hgrow := Grows.cloneAt s n f p.2
    refine (hφ.grows hgrow).append hψ hgrows.size_le (Expands.of_grows hgrow).size_le ?_
    refine Set.disjoint_left.2 fun l hl hl' => ?_
    obtain ⟨g, hg, hocc⟩ := hl
    rw [held_singleton] at hl'
    exact hout g hg f (List.mem_singleton.2 rfl) l hocc hl'

/-- **Each struct of a tree has one new location**, and the locations follow one another. -/
theorem relocates_cloneAt (h : s.Tree v) (hn : s.nestsAt n v = true) (t : Store) :
    ∃ φ, s.Relocates (cloneAt s n v t).2 t.aggregates.size (cloneAt s n v t).2.aggregates.size φ [v]
      [(cloneAt s n v t).1] := by
  induction n generalizing v t with
  | zero => cases hn
  | succ n ih =>
    have hsited := h.sited
    cases h with
    | @leaf v hne =>
      have hclone : cloneAt s (n + 1) v t = (v, t) := by
        unfold cloneAt
        split
        · exact absurd ‹_› (hne _)
        · rfl
      rw [hclone]
      exact ⟨id, .of_ne t _ id hne⟩
    | @struct v loc r hv hr htree hapart =>
      rw [nestsAt_struct hv hr] at hn
      have hgrows := Expands.of_grows (.makeAll (fun f t => Grows.cloneAt s n f t) r.fields.toList t)
      obtain ⟨φ, hφ⟩ := relocates_makeAll
        (fun f hf => ih (htree f (mem_toList_iff.1 hf)) (List.all_eq_true.1 hn f hf)) hapart t
      have hout : loc ∉ s.held r.fields.toList := by
        rintro ⟨f, hf, hocc⟩
        exact hsited.not_occupies_field hv hr (mem_toList_iff.1 hf) hocc
      obtain ⟨χ, hχ⟩ := hφ.struct hv hr hout hgrows.size_le
      refine ⟨χ, ?_⟩
      unfold cloneAt
      simp only [hv, hr]
      simpa [addAggregate] using hχ

/-! ## Writes -/

/-- A write to a field of a struct that `v` holds: of a copy, by the name of the field, or at a place of a value whose
structs were made for it. -/
inductive FieldWrite (U : Universe) (v : Value) (s : Store) : Store → Prop
  | named {o x : Value} {loc : Loc} {name : String} {s' : Store} : s.Inlines v o → o.datum = .aggregate loc →
    s.Sited x → setNamed U o name x s = some s' → FieldWrite U v s s'
  | placed {x : Value} {loc : Loc} {i : Nat} {t : Store} : s.Occupies v loc → s.Grows t →
    t.SitedFrom s.aggregates.size x → FieldWrite U v s (t.setFieldOf (.aggregate loc) i x)

theorem FieldWrite.cases (h : s.FieldWrite U v s') : s' = s ∨ ∃ x loc i t, s.Occupies v loc ∧ s.Grows t ∧
    t.SitedFrom s.aggregates.size x ∧ s' = t.setFieldOf (.aggregate loc) i x := by
  cases h with
  | placed hloc ht hx => exact .inr ⟨_, _, _, _, hloc, ht, hx, rfl⟩
  | @named o x loc name _ ho hd hx hset =>
    unfold setNamed at hset
    obtain ⟨r, -, hset⟩ := Option.bind_eq_some_iff.1 hset
    split at hset
    · dsimp only at hset
      split at hset
      · cases hset
        exact .inr ⟨_, loc, _, _, ⟨o, ho, hd⟩, .clone x s, sitedFrom_clone hx, by rw [hd]⟩
      · cases hset
    · cases hset
      exact .inl rfl

theorem SitedFrom.sited (h : s.SitedFrom N v) : s.Sited v := by
  induction h with
  | leaf hne => exact .leaf hne
  | struct hv _ hr _ ih => exact .struct hv hr ih

theorem size_setFieldOf (s : Store) (loc : Loc) (i : Nat) (x : Value) :
    (s.setFieldOf (.aggregate loc) i x).aggregates.size = s.aggregates.size :=
  size_modify

theorem SitedFrom.setFieldOf {i : Nat} (h : s.SitedFrom N v) (hloc : loc < N) :
    (s.setFieldOf (.aggregate loc) i x).SitedFrom N v := by
  induction h with
  | leaf hne => exact .leaf hne
  | @struct _ l _ hv hN hr _ ih =>
    exact .struct hv hN ((aggregates_setFieldOf_of_ne (Nat.ne_of_gt (Nat.lt_of_lt_of_le hloc hN))).trans hr) ih

theorem occupies_setFieldOf {i : Nat} (hv : ∀ l, s.Occupies v l → l < s.aggregates.size) (hgrows : s.Grows t)
    (hx : t.SitedFrom s.aggregates.size x) (hloc : loc < s.aggregates.size)
    (h : (t.setFieldOf (.aggregate loc) i x).Occupies v l) :
    s.Occupies v l ∨ s.aggregates.size ≤ l ∧ l < t.aggregates.size := by
  obtain ⟨y, hy, hd⟩ := h
  induction hy with
  | self v => exact .inl ⟨v, .self v, hd⟩
  | @field v f y top r hv' hr hf hy ih =>
    have htop : s.Occupies v top := ⟨v, .self v, hv'⟩
    obtain ⟨q, hq⟩ : ∃ q, s.aggregates[top]? = some q := ⟨_, getElem?_eq_getElem (hv top htop)⟩
    have hfield : f ∈ q.fields ∨ f = x := by
      by_cases heq : top = loc
      · subst heq
        cases (aggregates_setFieldOf (hgrows.aggregates hq)).symm.trans hr
        exact mem_or_eq_of_mem_setIfInBounds hf
      · rw [aggregates_setFieldOf_of_ne heq] at hr
        cases (hgrows.aggregates hq).symm.trans hr
        exact .inl hf
    rcases hfield with hf | rfl
    · exact (ih (fun l hl => hv l (htop.below hq hf hl)) hd).imp_left (htop.below hq hf)
    · have hnew := hx.setFieldOf (i := i) (x := f) hloc
      refine .inr ⟨hnew.le ⟨y, hy, hd⟩, ?_⟩
      rw [← size_setFieldOf t loc i f]
      exact hnew.sited.lt ⟨y, hy, hd⟩

/-- The value `v` of the store `u` lies elsewhere than `w` did in `t`, and the storage of `w` is as it was. -/
structure Beside (t u : Store) (v w : Value) : Prop where
  kept : ∀ l, t.Occupies w l → u.aggregates[l]? = t.aggregates[l]?
  elsewhere : ∀ l, u.Occupies v l → l < u.aggregates.size ∧ ¬t.Occupies w l
  size : t.aggregates.size ≤ u.aggregates.size
  objects : u.objects = t.objects

theorem Beside.fieldWrite (h : t.Beside u v w) (hw : t.Sited w) (hwrite : u.FieldWrite U v s') : t.Beside s' v w := by
  rcases hwrite.cases with rfl | ⟨x, loc, i, u', hloc, hgrows, hx, rfl⟩
  · exact h
  · have hsize := (Expands.of_grows hgrows).size_le
    obtain ⟨hlt, hout⟩ := h.elsewhere loc hloc
    refine ⟨fun l hl => ?_, fun l hl => ?_, ?_, ?_⟩
    · obtain ⟨q, hq⟩ : ∃ q, t.aggregates[l]? = some q := ⟨_, getElem?_eq_getElem (hw.lt hl)⟩
      rw [aggregates_setFieldOf_of_ne fun heq : l = loc => hout (heq ▸ hl), hq]
      exact hgrows.aggregates ((h.kept l hl).trans hq)
    · rw [size_setFieldOf]
      rcases occupies_setFieldOf (fun l hl => (h.elsewhere l hl).1) hgrows hx hlt hl with hl | ⟨hnew, hlt'⟩
      · exact (h.elsewhere l hl).imp_left fun hlt' => Nat.lt_of_lt_of_le hlt' hsize
      · exact ⟨hlt', fun hocc => Nat.not_lt.2 (Nat.le_trans h.size hnew) (hw.lt hocc)⟩
    · rw [size_setFieldOf]
      exact Nat.le_trans h.size hsize
    · obtain ⟨rs, rfl⟩ := hgrows
      exact h.objects

/-- Everything that the value held in `t` reads in `u` as before. -/
def Reads (t u : Store) (w : Value) : Prop := ∀ o, t.Inlines w o → u.Inlines w o ∧ u.record? o = t.record? o

theorem Beside.reads (h : t.Beside u v w) : t.Reads u w := by
  intro o ho
  constructor
  · have hkept : ∀ l, t.Occupies w l → u.aggregates[l]? = t.aggregates[l]? := h.kept
    clear h
    induction ho with
    | self w => exact .self w
    | @field w f o loc r hw hr hf _ ih =>
      have hloc : t.Occupies w loc := ⟨w, .self w, hw⟩
      exact .field hw ((hkept loc hloc).trans hr) hf (ih fun l hl => hkept l (hloc.below hr hf hl))
  · unfold record?
    cases hd : o.datum with
    | aggregate loc => exact h.kept loc ⟨o, ho, hd⟩
    | object loc => simp only [h.objects]
    | _ => rfl

/-- **Writes to the fields of a value** are not seen through one that lies elsewhere. -/
theorem reads_of_writes (hv : t.Sited v) (hw : t.Sited w) (hapart : t.Apart v w)
    (hwrites : Relation.ReflTransGen (FieldWrite U v) t u) : t.Reads u w := by
  have hstart : t.Beside t v w := ⟨fun _ _ => rfl, fun l hl => ⟨hv.lt hl, hapart l hl⟩, Nat.le_refl _, rfl⟩
  have hend : t.Beside u v w := by
    induction hwrites with
    | refl => exact hstart
    | tail _ hwrite ih => exact ih.fieldWrite hw hwrite
  exact hend.reads

/-- **A copy is separate from the value and shares all but its structs.** Nothing that was there changes. Each struct of
the value, and nothing else, has a new location, with the record of the struct: the structs in its fields are the new
ones, and all its other fields are shared. What is written to structs of the value later is not seen through the copy,
nor the other way around. -/
theorem clone_separates (U : Universe) (h : s.Tree v) :
    s.Grows (clone v s).2 ∧
    (∃ φ, Set.BijOn φ {loc | s.Occupies v loc} (Set.Ico s.aggregates.size (clone v s).2.aggregates.size) ∧
      (clone v s).1 = v.relocate φ ∧
      ∀ loc, s.Occupies v loc → (clone v s).2.aggregates[φ loc]? = (s.aggregates[loc]?).map (·.relocate φ)) ∧
    (∀ u, Relation.ReflTransGen (FieldWrite U v) (clone v s).2 u → (clone v s).2.Reads u (clone v s).1) ∧
    ∀ u, Relation.ReflTransGen (FieldWrite U (clone v s).1) (clone v s).2 u → (clone v s).2.Reads u v := by
  have hgrows : s.Expands (clone v s).2 := .of_grows (.clone v s)
  have hv : (clone v s).2.Sited v := h.sited.expands hgrows
  have hw : (clone v s).2.Sited (clone v s).1 := (sitedFrom_clone h.sited).sited
  have hapart := apart_clone h.sited (.refl _)
  refine ⟨.clone v s, ?_, fun u hwrites => reads_of_writes hv hw (fun l hl hl' => hapart l hl' hl) hwrites,
    fun u hwrites => reads_of_writes hw hv hapart hwrites⟩
  obtain ⟨φ, hφ⟩ := relocates_cloneAt h h.sited.nests s
  have hclone : clone v s = cloneAt s (s.aggregates.size + 1) v s := if_pos h.sited.nests
  rw [hclone]
  refine ⟨φ, held_singleton s v ▸ hφ.bijOn, List.singleton_inj.1 hφ.values, fun loc hloc => ?_⟩
  rw [getElem?_eq_getElem (h.sited.lt hloc)]
  exact hφ.records loc ⟨v, List.mem_singleton.2 rfl, hloc⟩ _ (getElem?_eq_getElem _)

/-! ## A line and its copy -/

/-- A point has a number, and a line a point and a label of any kind. -/
def drawing : Universe := Universe.declareAll {} [
  ⟨"Point", .struct, [.field "x" (some .int32)]⟩,
  ⟨"Line", .struct, [.field "start" (some (.declared 0)), .field "label" (some .object)]⟩]

/-- A line from the point 1, with a number in a box for a label. -/
def drawn : Store where
  aggregates := #[⟨some (.declared 0), #[.ofInt32 1]⟩,
    ⟨some (.declared 1), #[⟨some (.declared 0), .aggregate 0⟩, ⟨some .object, .box 0⟩]⟩]
  boxes := #[.ofInt32 7]

def line : Value := ⟨some (.declared 1), .aggregate 1⟩

theorem tree_line : drawn.Tree line := by
  have hpoint : drawn.Tree ⟨some (.declared 0), .aggregate 0⟩ := by
    refine .struct rfl rfl (fun f hf => ?_) (List.pairwise_singleton _ _)
    obtain rfl := mem_singleton.1 hf
    exact .leaf nofun
  refine .struct rfl rfl (fun f hf => ?_) (List.pairwise_pair.2 fun loc _ hbox => ?_)
  · rcases List.mem_pair.1 (mem_toList_iff.2 hf) with rfl | rfl
    · exact hpoint
    · exact .leaf nofun
  · obtain ⟨x, hx, hd⟩ := hbox
    rw [hx.eq_of_ne nofun] at hd
    cases hd

/-- The start of the line moves to 5, and its copy is as before. -/
theorem clone_separates_line : drawn.Tree line ∧
    ∃ u, setNamed drawing ⟨some (.declared 0), .aggregate 0⟩ "x" (.ofInt32 5) (clone line drawn).2 = some u ∧
      u.record? ⟨some (.declared 0), .aggregate 0⟩ = some ⟨some (.declared 0), #[.ofInt32 5]⟩ ∧
      (clone line drawn).2.Reads u (clone line drawn).1 := by
  have hwrite : setNamed drawing ⟨some (.declared 0), .aggregate 0⟩ "x" (.ofInt32 5) (clone line drawn).2 = some _ :=
    setNamed_eq (f := ⟨"x", .int32, .declared 0, 0⟩) rfl (by decide +kernel) (by decide)
  have hstart : (clone line drawn).2.Inlines line ⟨some (.declared 0), .aggregate 0⟩ :=
    .field rfl rfl (mem_toList_iff.1 List.mem_cons_self) (.self _)
  have hfive : (clone line drawn).2.Sited (.ofInt32 5) := .leaf nofun
  exact ⟨tree_line, _, hwrite, rfl,
    (clone_separates drawing tree_line).2.2.1 _ (.single (.named hstart rfl hfive hwrite))⟩

end Store

end TreeMachine
