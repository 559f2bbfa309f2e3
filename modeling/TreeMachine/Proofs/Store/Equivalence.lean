import TreeMachine.Proofs.Store.Contents
import TreeMachine.Proofs.Types.Assignability

/-!
# Equality is an equivalence

Values are compared after one box around each was opened, and so are the fields of structs. What is left is compared
by content (`Value.essence`), structs by their fields. On values whose structs have the fields of their types
(`Store.WellFormed`) this is an equivalence, and copies and boxes stay in the class of their value.
-/

namespace TreeMachine

/-- What a value other than a struct is compared by: scalars by their type and content, where all floats that are no
numbers are one, and everything else by its datum alone. -/
def Value.essence (v : Value) : Option Ty × Datum × Option Int :=
  match v.datum with
  | .bool _ | .int _ => (v.type, v.datum, none)
  | .float w => (v.type, .float 0, if w.isNaN then none else some w.key)
  | d => (none, d, none)

theorem Value.essence_aggregate {v : Value} {loc : Loc} :
    v.essence.2.1 = .aggregate loc ↔ v.datum = .aggregate loc := by
  unfold essence
  split <;> simp_all

theorem Binary64.same_iff {a b : Binary64} : a.same b = true ↔
    (if a.isNaN then none else some a.key) = if b.isNaN then none else some b.key := by
  unfold same equal
  cases ha : a.isNaN <;> cases hb : b.isNaN <;> simp

namespace Store

variable {U : Universe} {s t : Store} {a b c v w : Value} {n : Nat} {K : Value → Prop}

/-! ## Comparing -/

theorem equalAt_iff_essence (h : ∀ loc, (s.unboxed a).datum ≠ .aggregate loc) :
    s.equalAt (n + 1) a b = true ↔ (s.unboxed a).essence = (s.unboxed b).essence := by
  simp only [equalAt]
  generalize s.unboxed a = x at h ⊢
  generalize s.unboxed b = y
  obtain ⟨tx, dx⟩ := x
  obtain ⟨ty, dy⟩ := y
  cases dx with
  | aggregate loc => exact absurd rfl (h loc)
  | float w => cases dy <;> simp [Value.essence, Binary64.same_iff]
  | _ => cases dy <;> simp [Value.essence]

theorem equalAt_symm (h : s.equalAt n a b = true) : s.equalAt n b a = true := by
  induction n generalizing a b with
  | zero => cases h
  | succ n ih =>
    by_cases hstruct : ∃ loc, (s.unboxed a).datum = .aggregate loc
    · obtain ⟨x, hx⟩ := hstruct
      obtain ⟨y, p, q, hy, hp, hq, htype, hfields⟩ := (equalAt_struct hx).1 h
      refine (equalAt_struct hy).2 ⟨x, q, p, hx, hq, hp, htype.symm, ?_⟩
      exact fun i f g hf hg => ih (hfields i g f hg hf)
    · have hne : ∀ loc, (s.unboxed a).datum ≠ .aggregate loc := fun loc hloc => hstruct ⟨loc, hloc⟩
      have hessence := (equalAt_iff_essence hne).1 h
      refine (equalAt_iff_essence fun loc hloc => hne loc ?_).2 hessence.symm
      rwa [← Value.essence_aggregate, hessence, Value.essence_aggregate]

theorem Closed.equalAt_trans (hK : s.Closed K) (ha : K a) (hb : K b) (hc : K c) (hab : s.equalAt n a b = true)
    (hbc : s.equalAt n b c = true) : s.equalAt n a c = true := by
  induction n generalizing a b c with
  | zero => cases hab
  | succ n ih =>
    by_cases hstruct : ∃ loc, (s.unboxed a).datum = .aggregate loc
    · obtain ⟨x, hx⟩ := hstruct
      obtain ⟨y, p, q, hy, hp, hq, htype, hpq⟩ := (equalAt_struct hx).1 hab
      obtain ⟨z, q', r, hz, hq', hr, htype', hqr⟩ := (equalAt_struct hy).1 hbc
      obtain rfl := Option.some.inj (hq.symm.trans hq')
      refine (equalAt_struct hx).2 ⟨z, p, r, hz, hp, hr, htype.trans htype', fun i f h hf hh => ?_⟩
      -- the struct in the middle has a field at each place
      have hsize := hK.size (hK.unboxed ha) (hK.unboxed hb) hx hy hp hq htype
      obtain ⟨g, hg⟩ : ∃ g, q.fields[i]? = some g :=
        ⟨_, Array.getElem?_eq_getElem (hsize ▸ (Array.getElem?_eq_some_iff.1 hf).1)⟩
      exact ih (hK.fields (hK.unboxed ha) hx hp f (Array.mem_of_getElem? hf))
        (hK.fields (hK.unboxed hb) hy hq g (Array.mem_of_getElem? hg))
        (hK.fields (hK.unboxed hc) hz hr h (Array.mem_of_getElem? hh)) (hpq i f g hf hg) (hqr i g h hg hh)
    · have hne : ∀ loc, (s.unboxed a).datum ≠ .aggregate loc := fun loc hloc => hstruct ⟨loc, hloc⟩
      have hessence := (equalAt_iff_essence hne).1 hab
      have hne' : ∀ loc, (s.unboxed b).datum ≠ .aggregate loc := fun loc hloc => hne loc (by
        rwa [← Value.essence_aggregate, hessence, Value.essence_aggregate])
      exact (equalAt_iff_essence hne).2 (hessence.trans ((equalAt_iff_essence hne').1 hbc))

/-! ## Well-formed values -/

/-- Everything in the value is there and comes to an end, and structs have as many fields as their types. -/
inductive WellFormed (U : Universe) (s : Store) : Value → Prop
  | leaf {v : Value} : (∀ loc, v.datum ≠ .aggregate loc) → (∀ loc, v.datum ≠ .box loc) → WellFormed U s v
  | box {v p : Value} {loc : Loc} : v.datum = .box loc → s.boxes[loc]? = some p → WellFormed U s p → WellFormed U s v
  | struct {v : Value} {loc : Loc} {r : Record} {t : Ty} : v.datum = .aggregate loc → s.aggregates[loc]? = some r →
    r.type = some t → r.fields.size = (U.decl t).fields.length → (∀ f ∈ r.fields, WellFormed U s f) →
    WellFormed U s v

namespace WellFormed

theorem whole (h : s.WellFormed U v) : s.Whole v := by
  induction h with
  | leaf hne hbox => exact .leaf hne hbox
  | box hv hp _ ih => exact .box hv hp ih
  | struct hv hr _ _ _ ih => exact .struct hv hr ih

theorem expands (h : s.WellFormed U v) (hx : s.Expands t) : t.WellFormed U v := by
  induction h with
  | leaf hne hbox => exact .leaf hne hbox
  | box hv hp _ ih => exact .box hv (hx.boxes hp) ih
  | struct hv hr htype hsize _ ih => exact .struct hv (hx.aggregates hr) htype hsize ih

theorem fields {loc : Loc} {r : Record} (h : s.WellFormed U v) (hv : v.datum = .aggregate loc)
    (hr : s.aggregates[loc]? = some r) : (∃ t, r.type = some t ∧ r.fields.size = (U.decl t).fields.length) ∧
      ∀ f ∈ r.fields, s.WellFormed U f := by
  cases h with
  | leaf hne => exact absurd hv (hne loc)
  | box hb => exact absurd hv (Value.ne_aggregate_of_box hb loc)
  | struct hv' hr' htype hsize hfields =>
    cases hv.symm.trans hv'
    cases hr.symm.trans hr'
    exact ⟨⟨_, htype, hsize⟩, hfields⟩

theorem unboxed (h : s.WellFormed U v) : s.WellFormed U (s.unboxed v) := by
  cases h with
  | leaf hne hbox =>
    rw [unboxed_of_ne hbox]
    exact .leaf hne hbox
  | box hv hp hw =>
    rw [unboxed_of_box hv hp]
    exact hw
  | struct hv hr htype hsize hfields =>
    rw [unboxed_of_ne (Value.ne_box_of_aggregate hv)]
    exact .struct hv hr htype hsize hfields

theorem closed (U : Universe) (s : Store) : s.Closed (s.WellFormed U) where
  unboxed := unboxed
  fields := fun h hv hr => (h.fields hv hr).2
  size := by
    intro v w x y p q hv hw hx hy hp hq htype
    obtain ⟨⟨t, ht, hsize⟩, -⟩ := hv.fields hx hp
    obtain ⟨⟨t', ht', hsize'⟩, -⟩ := hw.fields hy hq
    obtain rfl : t = t' := Option.some.inj (ht.symm.trans (htype.trans ht'))
    exact hsize.trans hsize'.symm

theorem of_copied (h : s.WellFormed U v) (hc : s.Copied t v w) (hx : s.Expands t) : t.WellFormed U w := by
  induction h generalizing w with
  | leaf hne hbox =>
    rw [hc.eq_of_ne hne]
    exact .leaf hne hbox
  | box hv hp hw =>
    rw [hc.eq_of_ne (Value.ne_aggregate_of_box hv)]
    exact .box hv (hx.boxes hp) (hw.expands hx)
  | @struct v loc r ty hv hr htype hsize hfields ih =>
    obtain ⟨loc', r', rfl, hr', htype', hsize', hcopies⟩ := hc.of_struct hv hr
    refine .struct rfl hr' (htype'.trans htype) (hsize'.trans hsize) fun g hg => ?_
    obtain ⟨i, hi, rfl⟩ := Array.mem_iff_getElem.1 hg
    have hf := Array.getElem?_eq_getElem (hsize' ▸ hi)
    exact ih _ (Array.mem_of_getElem? hf) (hcopies i _ _ hf (Array.getElem?_eq_getElem hi))

theorem equalAt_expands (hx : s.Expands t) (ha : s.WellFormed U a) (hb : s.WellFormed U b) :
    t.equalAt n a b = s.equalAt n a b :=
  (Whole.covers s).equalAt_copied hx ha.whole hb.whole (ha.whole.sited.copied hx) (hb.whole.sited.copied hx) n

theorem equal_expands (hx : s.Expands t) (ha : s.WellFormed U a) (hb : s.WellFormed U b) :
    t.equal a b = s.equal a b := by
  rw [Bool.eq_iff_iff, (closed U t).equal_iff (ha.expands hx) (hb.expands hx), (closed U s).equal_iff ha hb]
  simp only [equalAt_expands hx ha hb]

theorem equal_trans (ha : s.WellFormed U a) (hb : s.WellFormed U b) (hc : s.WellFormed U c)
    (hab : s.equal a b = true) (hbc : s.equal b c = true) : s.equal a c = true :=
  (closed U s).equalAt_trans ha hb hc hab hbc

theorem equal_clone (h : s.WellFormed U a) (hx : (clone a s).2.Expands t) : t.equal a (clone a s).1 = true := by
  have hcopied := copied_clone h.whole.sited.nests
  have hgrows : s.Expands (clone a s).2 := .of_grows (.clone a s)
  have hcopy := h.of_copied hcopied hgrows
  rw [equal_expands hx (h.expands hgrows) hcopy]
  exact equalAt_symm (h.whole.equal_copy hcopied hgrows)

end WellFormed

theorem equal_box (h : s.WellFormed U a) (ha : ∀ loc, a.datum ≠ .box loc) (b : Value) :
    (box a s).2.equal (box a s).1 b = (box a s).2.equal (clone a s).1 b := by
  have hcopied := copied_clone h.whole.sited.nests
  have hpayload : (box a s).2.unboxed (box a s).1 = (clone a s).1 := unboxed_of_box rfl Array.getElem?_push_size
  refine equalAt_congr (hpayload.trans (unboxed_of_ne fun loc hloc => ?_).symm) rfl
  generalize (clone a s).1 = c at hcopied hloc
  cases hcopied with
  | leaf => exact ha loc hloc
  | missing hnone =>
    cases h with
    | leaf hne => exact hne _ rfl
    | box hb => cases hb
    | struct hv hr =>
      cases hv
      rw [hr] at hnone
      cases hnone
  | struct => cases hloc

/-- **Equality is an equivalence** on well-formed values, which ignores copies and one box around a value that is in
none. -/
theorem equal_equivalence (U : Universe) (s : Store) :
    (∀ a, s.WellFormed U a → s.equal a a = true) ∧
    (∀ a b, s.WellFormed U a → s.WellFormed U b → s.equal a b = true → s.equal b a = true) ∧
    (∀ a b c, s.WellFormed U a → s.WellFormed U b → s.WellFormed U c → s.equal a b = true → s.equal b c = true →
      s.equal a c = true) ∧
    (∀ a, s.WellFormed U a → (clone a s).2.equal a (clone a s).1 = true) ∧
    ∀ a, s.WellFormed U a → (∀ loc, a.datum ≠ .box loc) → (box a s).2.equal a (box a s).1 = true ∧
      ∀ b, s.WellFormed U b → (box a s).2.equal a b = s.equal a b ∧
        ((box a s).2.equal a b = true ↔ (box a s).2.equal (box a s).1 b = true) := by
  refine ⟨fun a ha => ?_, fun a b _ _ h => equalAt_symm h, fun a b c ha hb hc => ha.equal_trans hb hc,
    fun a ha => ha.equal_clone (.refl _), fun a ha hne => ?_⟩
  · exact ha.whole.equal_copy (ha.whole.sited.copied (.refl s)) (.refl s)
  · have hclone : s.Expands (clone a s).2 := .of_grows (.clone a s)
    have hwrap : (clone a s).2.Expands (box a s).2 := .wrap _ _
    have hcopy := (ha.of_copied (copied_clone ha.whole.sited.nests) hclone).expands hwrap
    have hequal := ha.equal_clone hwrap
    have ha' := ha.expands (hclone.trans hwrap)
    refine ⟨equalAt_symm ?_, fun b hb => ⟨ha.equal_expands (hclone.trans hwrap) hb, ?_⟩⟩
    · exact (equal_box ha hne a).trans (equalAt_symm hequal)
    · have hb' := hb.expands (hclone.trans hwrap)
      rw [equal_box ha hne b]
      exact ⟨fun h => hcopy.equal_trans ha' hb' (equalAt_symm hequal) h, fun h => ha'.equal_trans hcopy hb' hequal h⟩

/-! ## Two readings -/

/-- A reading has a value and a note. -/
def gauges : Universe := Universe.declareAll {} [
  ⟨"Reading", .struct, [.field "value" (some .float64), .field "note" (some .object)]⟩]

/-- Two readings whose values are no numbers, with a note in a box and one in none. -/
def samples : Store where
  aggregates :=
    #[⟨some (.declared 0), #[.ofFloat 0x7ff8000000000000, ⟨some .object, .box 0⟩]⟩,
      ⟨some (.declared 0), #[.ofFloat 0xfff8000000000001, .ofInt32 1]⟩]
  boxes := #[.ofInt32 1]

def sample (loc : Loc) : Value := ⟨some (.declared 0), .aggregate loc⟩

theorem wellFormed_sample {loc : Loc} (h : loc = 0 ∨ loc = 1) : samples.WellFormed gauges (sample loc) := by
  have hfloat : ∀ w, samples.WellFormed gauges (.ofFloat w) := fun w =>
    .leaf (by simp [Value.ofFloat]) (by simp [Value.ofFloat])
  have hint : ∀ n, samples.WellFormed gauges (.ofInt32 n) := fun n =>
    .leaf (by simp [Value.ofInt32]) (by simp [Value.ofInt32])
  rcases h with rfl | rfl
  · refine .struct (r := ⟨some (.declared 0), #[.ofFloat 0x7ff8000000000000, ⟨some .object, .box 0⟩]⟩) rfl rfl rfl
      (by decide +kernel) ?_
    simpa using ⟨hfloat _, .box rfl rfl (hint 1)⟩
  · refine .struct (r := ⟨some (.declared 0), #[.ofFloat 0xfff8000000000001, .ofInt32 1]⟩) rfl rfl rfl
      (by decide +kernel) ?_
    simpa using ⟨hfloat _, hint 1⟩

/-- The readings are equal both ways, and so are the first one and its box. -/
theorem equal_equivalence_sample : samples.equal (sample 0) (sample 1) = true ∧
    samples.equal (sample 1) (sample 0) = true ∧
    (box (sample 0) samples).2.equal (sample 0) (box (sample 0) samples).1 = true :=
  ⟨by decide +kernel,
    (equal_equivalence gauges samples).2.1 _ _ (wellFormed_sample (.inl rfl)) (wellFormed_sample (.inr rfl))
      (by decide +kernel),
    ((equal_equivalence gauges samples).2.2.2.2 _ (wellFormed_sample (.inl rfl)) (by simp [sample])).1⟩

end Store

end TreeMachine
