import TreeMachine.Proofs.Store.Bounds
import TreeMachine.Proofs.Store.Copies

/-!
# What a value holds

A struct value is the location of its storage, and the structs in its fields lie at locations of their own. What a
value holds are all of them; a box is a reference, and what is in it is not held.

* **`Store.Expands`**: a store to which structs and boxes were added. What was in it stays.
* **`Store.Inlines`** and **`Store.Occupies`** say what a value holds, and where.
* **`Store.Sited`** says that what a value holds is there and ends, **`Store.Whole`** also that what lies in its boxes
  does.
* **`Store.apart_clone`**: a copy shares no storage with the value.
* **`Store.Whole.equal_copy`**: a copy is equal to the value.
-/

open Array Option

namespace TreeMachine

open Value

variable {a a' b b' f p : Value} {R : Value → Value → Prop}

variable {loc : Loc} {r : Record}

theorem Value.ne_box_of_aggregate {v : Value} (h : v.datum = .aggregate loc) (loc' : Loc) : v.datum ≠ .box loc' := by
  rw [h]
  exact Datum.noConfusion

theorem Value.ne_aggregate_of_box {v : Value} (h : v.datum = .box loc) (loc' : Loc) : v.datum ≠ .aggregate loc' := by
  rw [h]
  exact Datum.noConfusion

namespace Store

variable {s s' t t' : Store} {v w x : Value} {n N : Nat} {K : Value → Prop}

/-! ## Stores that expand -/

def Expands (s t : Store) : Prop :=
  ∃ rs ps, t = { s with aggregates := s.aggregates ++ rs, boxes := s.boxes ++ ps }

namespace Expands

theorem refl (s : Store) : s.Expands s := ⟨#[], #[], by rw [append_empty, append_empty]⟩

theorem trans (h : s.Expands t) (h' : t.Expands t') : s.Expands t' := by
  obtain ⟨rs, ps, rfl⟩ := h
  obtain ⟨rs', ps', rfl⟩ := h'
  exact ⟨rs ++ rs', ps ++ ps', by simp only [append_assoc]⟩

theorem of_grows (h : s.Grows t) : s.Expands t := by
  obtain ⟨rs, rfl⟩ := h
  exact ⟨rs, #[], by rw [append_empty]⟩

theorem wrap (v : Value) (s : Store) : s.Expands (Store.wrap v s).2 :=
  ⟨#[], #[v], by rw [append_empty]; rfl⟩

theorem aggregates (h : s.Expands t) (hr : s.aggregates[loc]? = some r) : t.aggregates[loc]? = some r := by
  obtain ⟨rs, ps, rfl⟩ := h
  show (s.aggregates ++ rs)[loc]? = some r
  rw [Array.getElem?_append_left (Array.getElem?_eq_some_iff.1 hr).1, hr]

theorem boxes (h : s.Expands t) (hp : s.boxes[loc]? = some p) : t.boxes[loc]? = some p := by
  obtain ⟨rs, ps, rfl⟩ := h
  show (s.boxes ++ ps)[loc]? = some p
  rw [Array.getElem?_append_left (Array.getElem?_eq_some_iff.1 hp).1, hp]

theorem size_le (h : s.Expands t) : s.aggregates.size ≤ t.aggregates.size := by
  obtain ⟨rs, ps, rfl⟩ := h
  show _ ≤ (s.aggregates ++ rs).size
  rw [size_append]
  exact Nat.le_add_right _ _

end Expands

/-! ## Storage -/

/-- `x` is the value itself or stands in one of its structs, and not in a box. -/
inductive Inlines (s : Store) : Value → Value → Prop
  | self (v : Value) : Inlines s v v
  | field {v f x : Value} {loc : Loc} {r : Record} : v.datum = .aggregate loc → s.aggregates[loc]? = some r →
    f ∈ r.fields → Inlines s f x → Inlines s v x

def Occupies (s : Store) (v : Value) (loc : Loc) : Prop := ∃ x, s.Inlines v x ∧ x.datum = .aggregate loc

def Apart (s : Store) (v w : Value) : Prop := ∀ loc, s.Occupies v loc → ¬s.Occupies w loc

/-- Everything that the value holds is there, and structs in structs come to an end. -/
inductive Sited (s : Store) : Value → Prop
  | leaf {v : Value} : (∀ loc, v.datum ≠ .aggregate loc) → Sited s v
  | struct {v : Value} {loc : Loc} {r : Record} : v.datum = .aggregate loc → s.aggregates[loc]? = some r →
    (∀ f ∈ r.fields, Sited s f) → Sited s v

inductive Whole (s : Store) : Value → Prop
  | leaf {v : Value} : (∀ loc, v.datum ≠ .aggregate loc) → (∀ loc, v.datum ≠ .box loc) → Whole s v
  | box {v p : Value} {loc : Loc} : v.datum = .box loc → s.boxes[loc]? = some p → Whole s p → Whole s v
  | struct {v : Value} {loc : Loc} {r : Record} : v.datum = .aggregate loc → s.aggregates[loc]? = some r →
    (∀ f ∈ r.fields, Whole s f) → Whole s v

theorem Inlines.eq_of_ne (h : s.Inlines v x) (hv : ∀ loc, v.datum ≠ .aggregate loc) : x = v := by
  cases h with
  | self => rfl
  | field hloc => exact absurd hloc (hv _)

theorem Whole.sited (h : s.Whole v) : s.Sited v := by
  induction h with
  | leaf hne _ => exact .leaf hne
  | box hv _ _ _ => exact .leaf (ne_aggregate_of_box hv)
  | struct hv hr _ ih => exact .struct hv hr ih

namespace Sited

theorem nests (h : s.Sited v) : s.nests v = true := by
  refine nests_iff.2 ?_
  induction h with
  | leaf hne => exact ⟨1, nestsAt_of_ne hne 0⟩
  | struct hv hr _ ih =>
    refine exists_descends fun f hf => ih f ?_
    rwa [inlined_struct hv hr, mem_toList_iff] at hf

theorem acc (h : s.Sited v) (hv : v.datum = .aggregate loc) : Acc s.Inner loc := by
  induction h generalizing loc with
  | leaf hne => exact absurd hv (hne loc)
  | struct hv' hr _ ih =>
    cases hv.symm.trans hv'
    refine ⟨_, ?_⟩
    rintro inner ⟨r', f, hr', hf, hd⟩
    cases hr.symm.trans hr'
    exact ih f hf hd

theorem field (h : s.Sited v) (hv : v.datum = .aggregate loc)
    (hr : s.aggregates[loc]? = some r) (hf : f ∈ r.fields) : s.Sited f := by
  cases h with
  | leaf hne => exact absurd hv (hne loc)
  | struct hv' hr' hfields =>
    obtain rfl := Datum.aggregate.inj (hv.symm.trans hv')
    obtain rfl := some.inj (hr.symm.trans hr')
    exact hfields f hf

theorem lt (h : s.Sited v) (hloc : s.Occupies v loc) : loc < s.aggregates.size := by
  obtain ⟨x, hx, hd⟩ := hloc
  induction hx with
  | self v =>
    cases h with
    | leaf hne => exact absurd hd (hne loc)
    | struct hv hr _ =>
      obtain rfl := Datum.aggregate.inj (hd.symm.trans hv)
      exact (Array.getElem?_eq_some_iff.1 hr).1
  | field hv hr hf _ ih => exact ih (h.field hv hr hf) hd

theorem expands (h : s.Sited v) (hx : s.Expands t) : t.Sited v := by
  induction h with
  | leaf hne => exact .leaf hne
  | struct hv hr _ ih => exact .struct hv (hx.aggregates hr) ih

theorem inlines (h : s.Sited v) (hx : s.Expands t) (hin : t.Inlines v x) : s.Inlines v x := by
  induction h generalizing x with
  | leaf hne =>
    rw [hin.eq_of_ne hne]
    exact .self _
  | struct hv hr _ ih =>
    cases hin with
    | self => exact .self _
    | field hv' hr' hf hin =>
      obtain rfl := Datum.aggregate.inj (hv.symm.trans hv')
      obtain rfl := some.inj ((hx.aggregates hr).symm.trans hr')
      exact .field hv hr hf (ih _ hf hin)

end Sited

/-! ## Copies have storage of their own -/

/-- The value is sited, and its structs are at locations from `N` on. -/
inductive SitedFrom (N : Nat) (s : Store) : Value → Prop
  | leaf {v : Value} : (∀ loc, v.datum ≠ .aggregate loc) → SitedFrom N s v
  | struct {v : Value} {loc : Loc} {r : Record} : v.datum = .aggregate loc → N ≤ loc → s.aggregates[loc]? = some r →
    (∀ f ∈ r.fields, SitedFrom N s f) → SitedFrom N s v

namespace SitedFrom

theorem expands (h : s.SitedFrom N v) (hx : s.Expands t) : t.SitedFrom N v := by
  induction h with
  | leaf hne => exact .leaf hne
  | struct hv hN hr _ ih => exact .struct hv hN (hx.aggregates hr) ih

theorem le (h : s.SitedFrom N v) (hloc : s.Occupies v loc) : N ≤ loc := by
  obtain ⟨x, hx, hd⟩ := hloc
  induction h with
  | leaf hne =>
    rw [hx.eq_of_ne hne] at hd
    exact absurd hd (hne loc)
  | struct hv hN hr _ ih =>
    cases hx with
    | self =>
      obtain rfl := Datum.aggregate.inj (hv.symm.trans hd)
      exact hN
    | field hv' hr' hf hx =>
      obtain rfl := Datum.aggregate.inj (hv.symm.trans hv')
      obtain rfl := some.inj (hr.symm.trans hr')
      exact ih _ hf hx

end SitedFrom

theorem sitedFrom_cloneAt (h : s.Sited v) (hn : s.nestsAt n v = true) (hN : N ≤ s'.aggregates.size) :
    (cloneAt s n v s').2.SitedFrom N (cloneAt s n v s').1 := by
  induction n generalizing v s' with
  | zero => cases hn
  | succ n ih =>
    cases h with
    | @leaf v hne =>
      unfold cloneAt
      split
      · rename_i loc hd
        exact absurd hd (hne loc)
      · exact .leaf hne
    | @struct v loc r hv hr hsited =>
      rw [nestsAt_struct hv hr] at hn
      have hfield : ∀ f ∈ r.fields.toList, ∀ s'', s'.Grows s'' →
          (cloneAt s n f s'').2.SitedFrom N (cloneAt s n f s'').1 := by
        intro f hf s'' hgrows
        exact ih (hsited f (mem_toList_iff.1 hf)) (List.all_eq_true.1 hn f hf)
          (Nat.le_trans hN (Expands.of_grows hgrows).size_le)
      have hcopies := forall₂_makeAll (R := fun t _ w => t.SitedFrom N w) (fun f t => Grows.cloneAt s n f t)
        (fun h hgrows => h.expands (.of_grows hgrows)) hfield
      have hgrows := Grows.makeAll (fun f t => Grows.cloneAt s n f t) r.fields.toList s'
      unfold cloneAt
      simp only [hv, hr]
      refine .struct rfl (Nat.le_trans hN (Expands.of_grows hgrows).size_le) getElem?_push_size fun f hf => ?_
      obtain ⟨i, hi, rfl⟩ := List.getElem_of_mem (mem_toList_iff.2 hf)
      obtain ⟨hlength, hget⟩ := List.forall₂_iff_get.1 hcopies
      exact (hget i (hlength ▸ hi) hi).expands (.of_grows ⟨#[_], rfl⟩)

theorem sitedFrom_clone (h : s.Sited v) : (clone v s).2.SitedFrom s.aggregates.size (clone v s).1 := by
  unfold clone
  rw [if_pos h.nests]
  exact sitedFrom_cloneAt h h.nests (Nat.le_refl _)

theorem apart_clone (h : s.Sited v) (hx : (clone v s).2.Expands t) : t.Apart (clone v s).1 v := by
  intro loc hcopy hvalue
  have hfrom := ((sitedFrom_clone h).expands hx).le hcopy
  obtain ⟨x, hin, hd⟩ := hvalue
  exact Nat.not_lt.2 hfrom (h.lt ⟨x, h.inlines ((Expands.of_grows (.clone v s)).trans hx) hin, hd⟩)

/-! ## Copies are equal -/

theorem unboxed_of_box (hv : v.datum = .box loc) (hp : s.boxes[loc]? = some p) : s.unboxed v = p := by
  unfold unboxed payload?
  rw [hv]
  exact congrArg (·.getD v) hp

namespace Whole

/-- Without a cycle through structs and boxes, structs in each other come to an end. -/
theorem acc (h : s.Whole v) (hv : (s.unboxed v).datum = .aggregate loc) : Acc s.Part loc := by
  induction h generalizing loc with
  | leaf hne hbox =>
    rw [unboxed_of_ne hbox] at hv
    exact absurd hv (hne loc)
  | box hb hp _ ih =>
    rw [unboxed_of_box hb hp] at hv
    refine ih ?_
    rwa [unboxed_of_ne (ne_box_of_aggregate hv)]
  | struct ha hr _ ih =>
    rw [unboxed_of_ne (ne_box_of_aggregate ha)] at hv
    obtain rfl := Datum.aggregate.inj (ha.symm.trans hv)
    refine ⟨_, fun inner hin => ?_⟩
    obtain ⟨r', f, hr', hf, hinner⟩ := hin
    obtain rfl := some.inj (hr.symm.trans hr')
    exact ih f hf hinner

theorem partRank_lt (h : s.Whole v) (hv : v.datum = .aggregate loc)
    (hr : s.aggregates[loc]? = some r) (hf : f ∈ r.fields) : s.partRank f < s.partRank v := by
  have hunboxed : (s.unboxed v).datum = .aggregate loc := by
    rw [unboxed_of_ne (ne_box_of_aggregate hv), hv]
  have hlt := (Array.getElem?_eq_some_iff.1 hr).1
  rw [partRank_of_eq hunboxed]
  by_cases hstruct : ∃ inner, (s.unboxed f).datum = .aggregate inner
  · obtain ⟨inner, hinner⟩ := hstruct
    rw [partRank_of_eq hinner]
    exact Loc.rank_lt (h.acc hunboxed) hlt ⟨r, f, hr, hf, hinner⟩
  · rw [partRank_of_ne fun inner h => hstruct ⟨inner, h⟩]
    exact Loc.rank_pos hlt

end Whole

theorem equalAt_self_of_ne (h : ∀ loc, (s.unboxed v).datum ≠ .aggregate loc) (n : Nat) :
    s.equalAt (n + 1) v v = true := by
  simp only [equalAt]
  cases hd : (s.unboxed v).datum with
  | aggregate loc => exact absurd hd (h loc)
  | float x => cases hnan : x.isNaN <;> simp [Binary64.same, Binary64.equal, hnan]
  | _ => simp

theorem equalAt_congr (ha : s.unboxed a = s.unboxed a') (hb : s.unboxed b = s.unboxed b') :
    s.equalAt n a b = s.equalAt n a' b' := by
  cases n with
  | zero => rfl
  | succ n => simp only [equalAt, ha, hb]

theorem Copied.of_struct (h : s.Copied t v w) (hv : v.datum = .aggregate loc) (hr : s.aggregates[loc]? = some r) :
    ∃ loc' r', w = ⟨v.type, .aggregate loc'⟩ ∧ t.aggregates[loc']? = some r' ∧ r'.type = r.type ∧
      r'.fields.size = r.fields.size ∧
      ∀ (i : Nat) (x y : Value), r.fields[i]? = some x → r'.fields[i]? = some y → s.Copied t x y := by
  cases h with
  | leaf hne => exact absurd hv (hne loc)
  | missing hnone =>
    cases hv
    rw [hr] at hnone
    cases hnone
  | @struct type _ loc' p r' hp hr' htype hsize hfields =>
    cases hv
    obtain rfl := some.inj (hr.symm.trans hp)
    exact ⟨loc', r', rfl, hr', htype, hsize, hfields⟩

theorem forall₂_fields {r' : Record} (hsize : r'.fields.size = r.fields.size)
    (h : ∀ (i : Nat) (x y : Value), r.fields[i]? = some x → r'.fields[i]? = some y → R x y) :
    List.Forall₂ R r.fields.toList r'.fields.toList := by
  refine List.forall₂_iff_get.2 ⟨by simpa using hsize.symm, fun i hi hi' => h i _ _ ?_ ?_⟩
  · simp
  · simp

theorem Copied.eq_of_ne (h : s.Copied t v w) (hv : ∀ loc, v.datum ≠ .aggregate loc) : w = v := by
  cases h with
  | leaf => rfl
  | missing | struct => exact absurd rfl (hv _)

theorem Copied.type_eq (h : s.Copied t v w) : w.type = v.type := by
  cases h <;> rfl

theorem Sited.copied (h : s.Sited v) (hx : s.Expands t) : s.Copied t v v := by
  induction h with
  | leaf hne => exact .leaf hne
  | @struct v loc r hv hr _ ih =>
    obtain ⟨type, d⟩ := v
    subst hv
    refine .struct hr (hx.aggregates hr) rfl rfl fun i x y hx hy => ?_
    obtain rfl := some.inj (hx.symm.trans hy)
    exact ih x (mem_of_getElem? hx)

structure Covers (s : Store) (K : Value → Prop) : Prop where
  sited : ∀ {v}, K v → s.Sited v
  boxed : ∀ {v loc}, K v → v.datum = .box loc → ∃ p, s.boxes[loc]? = some p ∧ K p
  fields : ∀ {v loc r}, K v → v.datum = .aggregate loc → s.aggregates[loc]? = some r → ∀ f ∈ r.fields, K f

theorem Covers.unboxed (hK : s.Covers K) (hx : s.Expands t) (hv : K v) (hc : s.Copied t v w) :
    K (s.unboxed v) ∧ s.Copied t (s.unboxed v) (t.unboxed w) := by
  by_cases hbox : ∃ loc, v.datum = .box loc
  · obtain ⟨loc, hloc⟩ := hbox
    obtain rfl := hc.eq_of_ne (ne_aggregate_of_box hloc)
    obtain ⟨p, hp, hKp⟩ := hK.boxed hv hloc
    rw [unboxed_of_box hloc hp, unboxed_of_box hloc (hx.boxes hp)]
    exact ⟨hKp, (hK.sited hKp).copied hx⟩
  · have hne : ∀ loc, v.datum ≠ .box loc := fun loc hloc => hbox ⟨loc, hloc⟩
    have hne' : ∀ loc, w.datum ≠ .box loc := by
      cases hK.sited hv with
      | leaf hleaf => rwa [hc.eq_of_ne hleaf]
      | struct hd hr =>
        obtain ⟨loc', r', rfl, -⟩ := hc.of_struct hd hr
        exact nofun
    rw [unboxed_of_ne hne, unboxed_of_ne hne']
    exact ⟨hv, hc⟩

theorem all_zip_congr {P Q : Value → Value → Bool} {fs fs' gs gs' : List Value}
    (h : ∀ {f f' g g'}, R f f' → R g g' → P f' g' = Q f g) (hfs : List.Forall₂ R fs fs')
    (hgs : List.Forall₂ R gs gs') :
    ((fs'.zip gs').all fun fg => P fg.1 fg.2) = (fs.zip gs).all fun fg => Q fg.1 fg.2 := by
  induction hfs generalizing gs gs' with
  | nil => rfl
  | cons hf _ ih =>
    cases hgs with
    | nil => rfl
    | cons hg hgs => rw [List.zip_cons_cons, List.zip_cons_cons, List.all_cons, List.all_cons, h hf hg, ih hgs]

theorem Covers.equalAt_copied (hK : s.Covers K) (hx : s.Expands t) (ha : K a) (hb : K b)
    (hca : s.Copied t a a') (hcb : s.Copied t b b') (n : Nat) : t.equalAt n a' b' = s.equalAt n a b := by
  induction n generalizing a b a' b' with
  | zero => rfl
  | succ n ih =>
    obtain ⟨hpa, hua⟩ := hK.unboxed hx ha hca
    obtain ⟨hpb, hub⟩ := hK.unboxed hx hb hcb
    simp only [equalAt]
    generalize s.unboxed a = x at *
    generalize s.unboxed b = y at *
    generalize t.unboxed a' = x' at *
    generalize t.unboxed b' = y' at *
    cases hK.sited hpa with
    | leaf hne =>
      obtain rfl := hua.eq_of_ne hne
      cases hK.sited hpb with
      | leaf hne' =>
        obtain rfl := hub.eq_of_ne hne'
        cases hd : x'.datum with
        | aggregate loc => exact absurd hd (hne loc)
        | _ => cases y'.datum <;> rfl
      | struct hd hr =>
        obtain ⟨loc', r', rfl, -⟩ := hub.of_struct hd hr
        rw [hd]
        cases hd' : x'.datum with
        | aggregate loc => exact absurd hd' (hne loc)
        | _ => simp
    | struct hd hr =>
      obtain ⟨loc', r', rfl, hr', htype, hsize, hcopies⟩ := hua.of_struct hd hr
      rw [hd]
      cases hK.sited hpb with
      | leaf hne =>
        obtain rfl := hub.eq_of_ne hne
        cases hd' : y'.datum with
        | aggregate loc => exact absurd hd' (hne loc)
        | _ => simp
      | struct hd' hq =>
        obtain ⟨loc'', q', rfl, hq', htype', hsize', hcopies'⟩ := hub.of_struct hd' hq
        simp only [hd', hr, hr', hq, hq', htype, htype']
        congr 1
        -- field by field, where the structs are one level shallower
        refine all_zip_congr (R := fun f f' => K f ∧ s.Copied t f f') (fun hf hg => ih hf.1 hg.1 hf.2 hg.2) ?_ ?_
        · exact forall₂_fields hsize fun j f f' hf hf' =>
            ⟨hK.fields hpa hd hr f (mem_of_getElem? hf), hcopies j f f' hf hf'⟩
        · exact forall₂_fields hsize' fun j g g' hg hg' =>
            ⟨hK.fields hpb hd' hq g (mem_of_getElem? hg), hcopies' j g g' hg hg'⟩

theorem equalAt_struct {x : Loc} (ha : (s.unboxed a).datum = .aggregate x) :
    s.equalAt (n + 1) a b = true ↔ ∃ y p q, (s.unboxed b).datum = .aggregate y ∧ s.aggregates[x]? = some p ∧
      s.aggregates[y]? = some q ∧ p.type = q.type ∧ ∀ (i : Nat) (f g : Value), p.fields[i]? = some f →
        q.fields[i]? = some g → s.equalAt n f g = true := by
  have hzip : ∀ p q : Record, (∀ fg ∈ p.fields.toList.zip q.fields.toList, s.equalAt n fg.1 fg.2 = true) ↔
      ∀ (i : Nat) (f g : Value), p.fields[i]? = some f → q.fields[i]? = some g → s.equalAt n f g = true := by
    intro p q
    simp only [← getElem?_toList]
    constructor
    · intro h i f g hf hg
      exact h (f, g) (List.mem_of_getElem? (List.getElem?_zip_eq_some.2 ⟨hf, hg⟩))
    · intro h fg hfg
      obtain ⟨i, hi⟩ := List.mem_iff_getElem?.1 hfg
      obtain ⟨hf, hg⟩ := List.getElem?_zip_eq_some.1 hi
      exact h i _ _ hf hg
  simp only [equalAt_aggregate ha, hzip]

namespace Whole

theorem covers (s : Store) : s.Covers s.Whole where
  sited := sited
  boxed h hv := by
    cases h with
    | leaf _ hbox => exact absurd hv (hbox _)
    | box hb hp hw =>
      cases hv.symm.trans hb
      exact ⟨_, hp, hw⟩
    | struct hd => exact absurd hv (ne_box_of_aggregate hd _)
  fields h hv hr := by
    cases h with
    | leaf hne => exact absurd hv (hne _)
    | box hb => exact absurd hv (ne_aggregate_of_box hb _)
    | struct hd hr' hfields =>
      cases hv.symm.trans hd
      cases hr.symm.trans hr'
      exact hfields

theorem equalAt_self (h : s.Whole v) (hn : s.partRank v < n) : s.equalAt n v v = true := by
  induction h generalizing n with
  | leaf hne hbox =>
    obtain ⟨n, rfl⟩ : ∃ k, n = k + 1 := ⟨n - 1, by omega⟩
    refine equalAt_self_of_ne ?_ n
    rwa [unboxed_of_ne hbox]
  | @box v p loc hb hp _ ih =>
    have hunboxed := unboxed_of_box hb hp
    by_cases hstruct : ∃ inner, p.datum = .aggregate inner
    · obtain ⟨inner, hinner⟩ := hstruct
      have hplain : s.unboxed v = s.unboxed p := by
        rw [hunboxed, unboxed_of_ne (ne_box_of_aggregate hinner)]
      rw [equalAt_congr hplain hplain]
      refine ih ?_
      unfold partRank at hn ⊢
      rwa [← hplain]
    · obtain ⟨n, rfl⟩ : ∃ k, n = k + 1 := ⟨n - 1, by omega⟩
      refine equalAt_self_of_ne (fun inner hinner => hstruct ⟨inner, ?_⟩) n
      rwa [hunboxed] at hinner
  | @struct v loc r hv hr hfields ih =>
    have hwhole : s.Whole v := .struct hv hr hfields
    obtain ⟨n, rfl⟩ : ∃ k, n = k + 1 := ⟨n - 1, by omega⟩
    have hd : (s.unboxed v).datum = .aggregate loc := by rw [unboxed_of_ne (ne_box_of_aggregate hv), hv]
    refine (equalAt_struct hd).2 ⟨loc, r, r, hd, hr, hr, rfl, fun i f g hf hg => ?_⟩
    obtain rfl := some.inj (hf.symm.trans hg)
    have hmem := mem_of_getElem? hf
    have hlt := hwhole.partRank_lt hv hr hmem
    exact ih f hmem (by omega)

theorem equal_copy (h : s.Whole v) (hc : s.Copied t v w) (hx : s.Expands t) : t.equal w v = true := by
  unfold equal
  rw [(covers s).equalAt_copied hx h h hc (h.sited.copied hx)]
  refine h.equalAt_self (Nat.lt_succ_of_le (Nat.le_trans ?_ hx.size_le))
  by_cases hstruct : ∃ loc, (s.unboxed v).datum = .aggregate loc
  · obtain ⟨loc, hloc⟩ := hstruct
    rw [partRank_of_eq hloc]
    exact Loc.rank_le _ _ _
  · rw [partRank_of_ne fun loc h => hstruct ⟨loc, h⟩]
    exact Nat.zero_le _

end Whole

end Store

end TreeMachine
