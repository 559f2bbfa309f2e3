import TreeMachine.Proofs.Store.Contents
import TreeMachine.Proofs.Types.Assignability

/-!
# Equal values and their hashes

`Store.equal` looks into every box and compares floating point numbers as numbers; `Store.hash` looks into the box
around the whole value only and takes in words. The two part where a number has several words, and nowhere else:

* **`Store.Akin`** relates values that differ in nothing that a hash takes in.
* **`Heap.Typed.akin_of_equalAt`**: of typed values without such numbers, equal ones are alike.
-/

open List

namespace TreeMachine

open Store

def Datum.isInline : Datum → Bool
  | .bool _ | .int _ | .float _ | .aggregate _ => true
  | _ => false

theorem Datum.ne_box_of_isInline {d : Datum} (h : d.isInline = true) (loc : Loc) : d ≠ .box loc := by
  rintro rfl
  cases h

theorem Datum.isReference_of_isInline {d : Datum} (h : d.isInline = true) : d.isReference = false := by
  cases d <;> first | rfl | cases h

/-! ## Numbers with several words -/

namespace Binary64

variable {a b : Binary64}

def negativeZero : Binary64 := 0x8000000000000000

/-- No other word is the same number: the word is a number, and not the negative zero. -/
def isProper (w : Binary64) : Bool := !w.isNaN && w != negativeZero

theorem magnitude_eq (w : Binary64) : w.magnitude = w.toNat % 0x8000000000000000 := by
  rw [magnitude, UInt64.toNat_and]
  exact Nat.and_two_pow_sub_one_eq_mod w.toNat 63

theorem isNegative_iff (w : Binary64) : w.isNegative = true ↔ 0x8000000000000000 ≤ w.toNat := by
  have hshift : (w >>> 63).toNat = w.toNat / 0x8000000000000000 := by
    rw [UInt64.toNat_shiftRight]
    exact Nat.shiftRight_eq_div_pow w.toNat 63
  have hlt := w.toNat_lt
  rw [isNegative, bne_iff_ne, ne_eq, ← UInt64.toNat_inj, hshift, UInt64.toNat_zero]
  omega

theorem eq_of_key (h : a.key = b.key) (ha : a ≠ negativeZero) (hb : b ≠ negativeZero) : a = b := by
  have hlta := a.toNat_lt
  have hltb := b.toNat_lt
  rw [ne_eq, ← UInt64.toNat_inj, show negativeZero.toNat = 0x8000000000000000 from rfl] at ha hb
  rw [← UInt64.toNat_inj]
  simp only [key, isNegative_iff, magnitude_eq] at h
  split at h <;> split at h <;> omega

theorem eq_of_same (h : a.same b = true) (ha : a.isProper = true) (hb : b.isProper = true) : a = b := by
  simp only [isProper, Bool.and_eq_true, Bool.not_eq_true', bne_iff_ne] at ha hb
  simp only [same, equal, ha.1, hb.1, Bool.not_false, Bool.true_and, Bool.and_false, Bool.or_false,
    decide_eq_true_eq] at h
  exact eq_of_key h ha.2 hb.2

end Binary64

namespace Store

variable {s : Store} {U : Universe} {a b v f : Value} {n : Nat} {loc : Loc} {r : Record}

/-! ## What a hash takes in -/

/-- No number in the value has several words. -/
def Proper (s : Store) (v : Value) : Prop := ∀ x w, s.Inlines v x → x.datum = .float w → w.isProper = true

theorem Proper.field (h : s.Proper v) (hv : v.datum = .aggregate loc) (hr : s.aggregates[loc]? = some r)
    (hf : f ∈ r.fields) : s.Proper f :=
  fun x w hx => h x w (.field hv hr hf hx)

/-- Values that differ in nothing that a hash takes in: of two boxes it takes in nothing, and of two structs the type
that they are held at and their fields. -/
inductive Akin (s : Store) : Value → Value → Prop
  | datum {a b : Value} : (∀ loc, a.datum ≠ .aggregate loc) → a.datum = b.datum → Akin s a b
  | boxes {a b : Value} {x y : Loc} : a.datum = .box x → b.datum = .box y → Akin s a b
  | structs {a b : Value} {x y : Loc} {p q : Record} : a.datum = .aggregate x → b.datum = .aggregate y →
    s.aggregates[x]? = some p → s.aggregates[y]? = some q → a.type = b.type →
    List.Forall₂ (Akin s) p.fields.toList q.fields.toList → Akin s a b

theorem hashAt_congr (ha : ∀ loc, a.datum ≠ .aggregate loc) (h : a.datum = b.datum) (n : Nat) (x : UInt32) :
    s.hashAt U n x a = s.hashAt U n x b := by
  cases n with
  | zero => rfl
  | succ n =>
    simp only [hashAt, ← h]
    cases hd : a.datum with
    | aggregate loc => exact absurd hd (ha loc)
    | _ => rfl

theorem hashAt_box (h : v.datum = .box loc) (n : Nat) (x : UInt32) : s.hashAt U (n + 1) x v = some (hashByte x 7) := by
  simp only [hashAt, h]
  rfl

theorem hashAt_struct (h : v.datum = .aggregate loc) (hr : s.aggregates[loc]? = some r) (n : Nat) (x : UInt32) :
    s.hashAt U (n + 1) x v = v.type.bind fun t =>
      r.fields.toList.foldlM (fun x f => s.hashAt U n x f) (hashText (hashByte x 5) (U.name t)) := by
  simp only [hashAt, h, hr]
  rfl

theorem foldlM_eq_of_forall₂ {f g : UInt32 → Value → Option UInt32} {as bs : List Value}
    (h : List.Forall₂ (fun a b => ∀ x, f x a = g x b) as bs) (x : UInt32) : as.foldlM f x = bs.foldlM g x := by
  induction h generalizing x with
  | nil => rfl
  | cons h _ ih =>
    rw [foldlM_cons, foldlM_cons, h]
    exact bind_congr ih

namespace Akin

theorem hashAt (h : s.Akin a b) (n : Nat) (x : UInt32) : s.hashAt U n x a = s.hashAt U n x b := by
  induction n generalizing a b x with
  | zero => rfl
  | succ n ih =>
    cases h with
    | datum ha hd => exact hashAt_congr ha hd (n + 1) x
    | boxes ha hb => rw [hashAt_box ha, hashAt_box hb]
    | structs ha hb hp hq htype hfields =>
      rw [hashAt_struct ha hp, hashAt_struct hb hq, htype]
      exact congrArg _ (funext fun t => foldlM_eq_of_forall₂ (hfields.imp fun _ _ hf => ih hf) _)

theorem nestsAt (h : s.Akin a b) (n : Nat) : s.nestsAt n a = s.nestsAt n b := by
  induction n generalizing a b with
  | zero => rfl
  | succ n ih =>
    cases h with
    | datum ha hd => rw [nestsAt_of_ne ha, nestsAt_of_ne (hd ▸ ha)]
    | boxes ha hb => rw [nestsAt_of_ne (Value.ne_aggregate_of_box ha), nestsAt_of_ne (Value.ne_aggregate_of_box hb)]
    | structs ha hb hp hq _ hfields =>
      have hall : ∀ {fs gs : List Value}, List.Forall₂ s.Akin fs gs →
          fs.all (s.nestsAt n) = gs.all (s.nestsAt n) := by
        intro fs gs hfg
        induction hfg with
        | nil => rfl
        | cons hf _ ihfs => rw [all_cons, all_cons, ih hf, ihfs]
      rw [nestsAt_struct ha hp, nestsAt_struct hb hq, hall hfields]

theorem hash (h : s.Akin (s.unboxed a) (s.unboxed b)) : s.hash U a = s.hash U b := by
  unfold Store.hash nests
  rw [h.nestsAt, h.hashAt]

end Akin

/-! ## What equal values have in common -/

theorem equalAt_unboxed (ha : ∀ loc, (s.unboxed a).datum ≠ .box loc) (hb : ∀ loc, (s.unboxed b).datum ≠ .box loc) :
    s.equalAt n (s.unboxed a) (s.unboxed b) = s.equalAt n a b := by
  cases n with
  | zero => rfl
  | succ n => simp only [equalAt, unboxed_of_ne ha, unboxed_of_ne hb]

theorem hash_unboxed (h : ∀ loc, (s.unboxed v).datum ≠ .box loc) : s.hash U (s.unboxed v) = s.hash U v := by
  unfold hash
  rw [unboxed_of_ne h]

theorem datum_eq_of_equalAt (h : s.equalAt n a b = true) (hs : ∀ loc, (s.unboxed a).datum ≠ .aggregate loc)
    (ha : s.Proper (s.unboxed a)) (hb : s.Proper (s.unboxed b)) : (s.unboxed a).datum = (s.unboxed b).datum := by
  cases n with
  | zero => cases h
  | succ n =>
    simp only [equalAt] at h
    cases hda : (s.unboxed a).datum with
    | aggregate loc => exact absurd hda (hs loc)
    | float x =>
      cases hdb : (s.unboxed b).datum with
      | float y =>
        simp only [hda, hdb, Bool.and_eq_true] at h
        rw [Binary64.eq_of_same h.2 (ha _ _ (.self _) hda) (hb _ _ (.self _) hdb)]
      | _ => simp [hda, hdb] at h
    | _ => cases hdb : (s.unboxed b).datum <;> simp_all

/-- Equal values are both references or both scalars or structs, boxes apart. -/
theorem isReference_of_equalAt (h : s.equalAt n a b = true) :
    (s.unboxed a).datum.isReference = (s.unboxed b).datum.isReference := by
  cases n with
  | zero => cases h
  | succ n =>
    simp only [equalAt] at h
    cases hda : (s.unboxed a).datum <;> cases hdb : (s.unboxed b).datum <;> simp_all [Datum.isReference]

end Store

namespace Heap

variable {U : Universe} {F : Delegate → Signature → Prop} {w : Heap U F} {a b v : Value} {t u : Ty} {n : Nat}
  {loc : Loc}

/-- The value, or what is in it if it is a box, is of a type. -/
def Sound (w : Heap U F) (v : Value) : Prop :=
  (∀ loc, (w.store.unboxed v).datum ≠ .box loc) ∧ ∃ t, w.HasType (w.store.unboxed v) (some t)

theorem HasType.isInline (h : w.HasType v (some t)) (ht : U.isValue t = true) : v.datum.isInline = true := by
  rcases Universe.scalar_or_aggregate ht with hs | hs
  · have hd := ((hasType_scalar_iff hs).1 h).2
    unfold Datum.isOf at hd
    split at hd
    all_goals
      first
      | (rename_i hdatum; rw [hdatum]; rfl)
      | cases hd
  · obtain ⟨loc, rfl, -, -⟩ := (hasType_aggregate hs).1 h
    rfl

theorem HasType.isReference_of_value (h : w.HasType v (some t)) (ht : U.isValue t = true) :
    v.datum.isReference = false := Datum.isReference_of_isInline (h.isInline ht)

theorem HasType.ne_box_of_value (h : w.HasType v (some t)) (ht : U.isValue t = true) (loc : Loc) :
    v.datum ≠ .box loc := Datum.ne_box_of_isInline (h.isInline ht) loc

theorem Typed.hasType_payload (hw : w.Typed) (h : w.Proper v) (hv : v.datum = .box loc) :
    ∃ t, U.isValue t = true ∧ w.HasType (w.store.unboxed v) (some t) := by
  obtain ⟨type, d⟩ := v
  obtain rfl : d = .box loc := hv
  obtain ⟨p, t, hp, -, ht, hpt⟩ := hw _ h.1
  have hunboxed : w.store.unboxed ⟨type, .box loc⟩ = p := congrArg (Option.getD · _) hp
  exact ⟨t, ht, hunboxed ▸ hpt⟩

theorem Typed.sound (hw : w.Typed) (h : w.HasType v (some t)) : w.Sound v := by
  by_cases hbox : ∃ loc, v.datum = .box loc
  · obtain ⟨loc, hloc⟩ := hbox
    obtain ⟨u, hu, hp⟩ := hw.hasType_payload h.1 hloc
    exact ⟨hp.ne_box_of_value hu, u, hp⟩
  · have hne : ∀ loc, v.datum ≠ .box loc := fun loc hloc => hbox ⟨loc, hloc⟩
    unfold Sound
    rw [unboxed_of_ne hne]
    exact ⟨hne, t, h⟩

theorem Typed.isReference_unboxed (hw : w.Typed) (h : w.HasType v (some t)) (ht : U.isValue t = false) :
    (w.store.unboxed v).datum.isReference = true ↔ ∀ loc, v.datum ≠ .box loc := by
  refine ⟨fun href loc hloc => ?_, fun hne => ?_⟩
  · obtain ⟨u, hu, hp⟩ := hw.hasType_payload h.1 hloc
    rw [hp.isReference_of_value hu] at href
    cases href
  · rw [unboxed_of_ne hne]
    exact h.2.2 ht

theorem Typed.box_iff_of_equalAt (hw : w.Typed) (ha : w.HasType a (some t)) (hb : w.HasType b (some t))
    (h : w.store.equalAt n a b = true) : (∀ loc, a.datum ≠ .box loc) ↔ ∀ loc, b.datum ≠ .box loc := by
  cases ht : U.isValue t with
  | true => exact iff_of_true (ha.ne_box_of_value ht) (hb.ne_box_of_value ht)
  | false => rw [← hw.isReference_unboxed ha ht, ← hw.isReference_unboxed hb ht, isReference_of_equalAt h]

theorem Typed.struct (hw : w.Typed) {r : Record} (h : w.HasType v (some t)) (hv : v.datum = .aggregate loc)
    (hr : w.store.aggregates[loc]? = some r) : v.type = some t ∧ r.type = some t ∧ w.Fills t r.fields.toList := by
  obtain ⟨type, d⟩ := v
  obtain rfl : d = .aggregate loc := hv
  obtain ⟨t', ht, htype, -, hk, hn⟩ := h.aggregate
  cases ht
  obtain ⟨r', u, hr', hu, -, hfields⟩ := hw _ hk
  obtain rfl := Option.some.inj (hr.symm.trans hr')
  rw [nominal, hr, Option.bind_some, hu] at hn
  cases hn
  exact ⟨htype, hu, hfields⟩

theorem HaveTypes.pairs {vs vs' : List Value} {ts : List (Option Ty)} (h : w.HaveTypes vs ts)
    (h' : w.HaveTypes vs' ts) :
    List.Forall₂ (fun v v' => ∃ t ∈ ts, w.HasType v t ∧ w.HasType v' t) vs vs' := by
  induction h generalizing vs' with
  | nil =>
    cases h'
    exact .nil
  | cons hv _ ih =>
    cases h' with
    | cons hv' hvs' =>
      refine .cons ⟨_, mem_cons_self, hv, hv'⟩ ((ih hvs').imp fun _ _ ⟨t, ht, hp⟩ => ⟨t, ?_, hp⟩)
      exact mem_cons_of_mem _ ht

/-- **Equal values are alike.** The induction is on how deep the two are compared. -/
theorem Typed.akin_of_equalAt (hw : w.Typed) (ha : w.HasType a (some t)) (hb : w.HasType b (some u))
    (hra : ∀ loc, a.datum ≠ .box loc) (hrb : ∀ loc, b.datum ≠ .box loc) (hpa : w.store.Proper a)
    (hpb : w.store.Proper b) (h : w.store.equalAt n a b = true) : w.store.Akin a b := by
  induction n generalizing a b t u with
  | zero => cases h
  | succ n ih =>
    have hua := unboxed_of_ne (s := w.store) hra
    have hub := unboxed_of_ne (s := w.store) hrb
    by_cases hstruct : ∃ x, a.datum = .aggregate x
    · obtain ⟨x, hx⟩ := hstruct
      obtain ⟨y, p, q, hy, hp, hq, htype, hfields⟩ := (equalAt_aggregate (hua.symm ▸ hx)).1 h
      rw [hub] at hy
      obtain ⟨hat, hpt, hfa⟩ := hw.struct ha hx hp
      obtain ⟨hbt, hqt, hfb⟩ := hw.struct hb hy hq
      obtain rfl : t = u := Option.some.inj (hpt.symm.trans (htype.trans hqt))
      refine .structs hx hy hp hq (hat.trans hbt.symm) (forall₂_iff_zip.2 ⟨?_, fun {f g} hfg => ?_⟩)
      · exact (List.Forall₂.length_eq hfa).trans (List.Forall₂.length_eq hfb).symm
      obtain ⟨hf, hg⟩ := of_mem_zip hfg
      obtain ⟨τ, hτ, hft, hgt⟩ := (forall₂_iff_zip.1 (hfa.pairs hfb)).2 hfg
      obtain ⟨field, -, rfl⟩ := mem_map.1 hτ
      have heq := hfields _ hfg
      by_cases hbox : ∃ loc, f.datum = .box loc
      · -- a box in a field is hashed like any other one
        obtain ⟨loc, hloc⟩ := hbox
        have hbox' : ∃ loc, g.datum = .box loc := by
          by_contra hne
          exact (hw.box_iff_of_equalAt hft hgt heq).2 (fun loc hloc => hne ⟨loc, hloc⟩) loc hloc
        obtain ⟨loc', hloc'⟩ := hbox'
        exact .boxes hloc hloc'
      · have hrf : ∀ loc, f.datum ≠ .box loc := fun loc hloc => hbox ⟨loc, hloc⟩
        exact ih hft hgt hrf ((hw.box_iff_of_equalAt hft hgt heq).1 hrf)
          (hpa.field hx hp (Array.mem_toList_iff.1 hf)) (hpb.field hy hq (Array.mem_toList_iff.1 hg)) heq
    · have hne : ∀ x, a.datum ≠ .aggregate x := fun x hx => hstruct ⟨x, hx⟩
      have hdatum := datum_eq_of_equalAt h (hua.symm ▸ hne) (hua.symm ▸ hpa) (hub.symm ▸ hpb)
      rw [hua, hub] at hdatum
      exact .datum hne hdatum

/-- **Equal values have one hash**, unless they hold a number that has several words. -/
theorem Typed.hash_of_equal (hw : w.Typed) (ha : w.Sound a) (hb : w.Sound b)
    (hpa : w.store.Proper (w.store.unboxed a)) (hpb : w.store.Proper (w.store.unboxed b))
    (h : w.store.equal a b = true) : ∃ x, w.store.hash U a = some x ∧ w.store.hash U b = some x := by
  obtain ⟨hra, t, hta⟩ := ha
  obtain ⟨hrb, u, htb⟩ := hb
  rw [equal, ← equalAt_unboxed hra hrb] at h
  have hakin := hw.akin_of_equalAt hta htb hra hrb hpa hpb h
  obtain ⟨x, hx⟩ := Option.isSome_iff_exists.1 (hw.isSome_hash hta.1)
  rw [hash_unboxed hra] at hx
  exact ⟨x, hx, hakin.hash ▸ hx⟩

/-! ## Readings with notes -/

def readings : Universe := Universe.declareAll {} [
  ⟨"Reading", .struct, [.field "value" (some .float64), .field "note" (some .object)]⟩]

/-- Two readings of one half, each with a box of its own for a note, and a box around the first. -/
def halves : Heap readings fun _ _ => False where
  store := {
    aggregates := #[⟨some (.declared 0), #[.ofFloat 0x3fe0000000000000, ⟨some .object, .box 0⟩]⟩,
      ⟨some (.declared 0), #[.ofFloat 0x3fe0000000000000, ⟨some .object, .box 1⟩]⟩]
    boxes := #[.ofInt32 1, .ofInt32 1, ⟨some (.declared 0), .aggregate 0⟩] }
  known d := d ∈ [.aggregate 0, .aggregate 1, .box 0, .box 1, .box 2]

theorem halves_half : halves.HasType (.ofFloat 0x3fe0000000000000) (some .float64) :=
  (hasType_scalar_iff (by decide)).2 ⟨rfl, by decide⟩

theorem halves_one : halves.HasType (.ofInt32 1) (some .int32) := (hasType_scalar_iff (by decide)).2 ⟨rfl, by decide⟩

theorem halves_note (h : loc = 0 ∨ loc = 1) : halves.HasType ⟨some .object, .box loc⟩ (some .object) := by
  rcases h with rfl | rfl <;>
    exact ⟨⟨by simp [halves], .int32, rfl, by decide⟩, by decide +kernel, fun _ => rfl⟩

theorem readings_aggregate : readings.isAggregate (.declared 0) = true := by decide +kernel

theorem halves_reading (h : loc = 0 ∨ loc = 1) :
    halves.HasType ⟨some (.declared 0), .aggregate loc⟩ (some (.declared 0)) := by
  rcases h with rfl | rfl <;> exact (hasType_aggregate readings_aggregate).2 ⟨_, rfl, by simp [halves], rfl⟩

theorem halves_fills (h : loc = 0 ∨ loc = 1) :
    halves.Fills (.declared 0) [.ofFloat 0x3fe0000000000000, ⟨some .object, .box loc⟩] := by
  have hlayout : (readings.layout (.declared 0)).map (fun f => some f.type) = [some .float64, some .object] := by
    decide +kernel
  unfold Fills
  rw [hlayout]
  exact .cons halves_half (.cons (halves_note h) .nil)

theorem halves_typed : halves.Typed := by
  intro d hd
  simp only [halves, mem_cons, not_mem_nil, or_false] at hd
  rcases hd with rfl | rfl | rfl | rfl | rfl
  · exact ⟨_, .declared 0, rfl, rfl, readings_aggregate, halves_fills (.inl rfl)⟩
  · exact ⟨_, .declared 0, rfl, rfl, readings_aggregate, halves_fills (.inr rfl)⟩
  · exact ⟨_, .int32, rfl, rfl, by decide, halves_one⟩
  · exact ⟨_, .int32, rfl, rfl, by decide, halves_one⟩
  · exact ⟨_, .declared 0, rfl, rfl, Universe.isValue_of_isAggregate readings_aggregate, halves_reading (.inl rfl)⟩

theorem halves_proper (h : loc = 0 ∨ loc = 1) : halves.store.Proper ⟨some (.declared 0), .aggregate loc⟩ := by
  intro x w hx hw
  have hfields : ∃ r note, halves.store.aggregates[loc]? = some r ∧
      r.fields = #[.ofFloat 0x3fe0000000000000, ⟨some .object, .box note⟩] := by
    rcases h with rfl | rfl <;> exact ⟨_, _, rfl, rfl⟩
  obtain ⟨r, note, hr, hfields⟩ := hfields
  cases hx with
  | self => cases hw
  | field hd hr' hf hx =>
    cases hd
    obtain rfl := Option.some.inj (hr.symm.trans hr')
    simp only [hfields, mem_toArray, mem_cons, not_mem_nil, or_false] at hf
    rcases hf with rfl | rfl
    · cases hx with
      | self =>
        cases hw
        decide
      | field hd => cases hd
    · cases hx with
      | self => cases hw
      | field hd => cases hd

/-- A box around one reading and the other reading, which is equal to it, have one hash. -/
theorem halves_hash : halves.Typed ∧ halves.Sound ⟨some .object, .box 2⟩ ∧
    halves.Sound ⟨some (.declared 0), .aggregate 1⟩ ∧
    halves.store.equal ⟨some .object, .box 2⟩ ⟨some (.declared 0), .aggregate 1⟩ = true ∧
    ∃ x, halves.store.hash readings ⟨some .object, .box 2⟩ = some x ∧
      halves.store.hash readings ⟨some (.declared 0), .aggregate 1⟩ = some x := by
  have hbox : halves.Sound ⟨some .object, .box 2⟩ := ⟨nofun, _, halves_reading (.inl rfl)⟩
  have hreading : halves.Sound ⟨some (.declared 0), .aggregate 1⟩ := halves_typed.sound (halves_reading (.inr rfl))
  have hequal : halves.store.equal ⟨some .object, .box 2⟩ ⟨some (.declared 0), .aggregate 1⟩ = true := by
    decide +kernel
  exact ⟨halves_typed, hbox, hreading, hequal,
    halves_typed.hash_of_equal hbox hreading (halves_proper (.inl rfl)) (halves_proper (.inr rfl)) hequal⟩

/-- **The two zeros** are equal numbers with different hashes. -/
theorem zeros_hash : halves.Typed ∧ halves.HasType (.ofFloat 0) (some .float64) ∧
    halves.HasType (.ofFloat Binary64.negativeZero) (some .float64) ∧
    Binary64.isNaN 0 = false ∧ Binary64.negativeZero.isNaN = false ∧
    halves.store.equal (.ofFloat 0) (.ofFloat Binary64.negativeZero) = true ∧
    halves.store.hash readings (.ofFloat 0) ≠ halves.store.hash readings (.ofFloat Binary64.negativeZero) :=
  ⟨halves_typed, (hasType_scalar_iff (by decide)).2 ⟨rfl, by decide⟩, (hasType_scalar_iff (by decide)).2
    ⟨rfl, by decide⟩,
    by decide, by decide, by decide +kernel, by decide +kernel⟩

end Heap

end TreeMachine
