import TreeMachine.Proofs.Store.Hashing

/-!
# Values that hold the same in two stores

Two executions that start from one store, one of them with a copy in place of a value, end in stores in which the same
things lie at different locations.

* **`Store.Grounded`** says that what a value holds is there, boxes included.
* **`Store.Matches`** relates a value of one store to a value of another that holds the same.
* **`Store.Matches.clone`**: copies of matching values match.
* **`Store.Copied.matches_setField`**: a write to a field of a value and of its copy keeps them matching.
* **`Heap.Typed.equal_copied`**, **`Store.Copied.hash`** and **`Store.Copied.text`**: what is asked of a value and of
  its copy has one answer.
* **`Heap.Typed.grounded`**: where the structs in the fields of a struct were declared before it, typed values are
  grounded.
-/

open Array

namespace TreeMachine

open Store

namespace Store

variable {s s' t t' : Store} {v v' w w' x y f : Value} {r : Record} {loc loc' : Loc} {n N i : Nat}

/-! ## Values that match -/

/-- Everything that the value holds is there, and structs in structs come to an end. -/
inductive Grounded (s : Store) : Value → Prop
  | leaf {v : Value} : (∀ loc, v.datum ≠ .aggregate loc) → (∀ loc, v.datum = .box loc → loc < s.boxes.size) →
    Grounded s v
  | struct {v : Value} {loc : Loc} {r : Record} : v.datum = .aggregate loc → s.aggregates[loc]? = some r →
    (∀ f ∈ r.fields, Grounded s f) → Grounded s v

/-- The value `w` of the store `t` holds what `v` holds in the store `s`. The first `N` boxes are those that both
stores began with, and are compared by identity; other boxes match if what is in them does. -/
inductive Matches (N : Nat) (s t : Store) : Value → Value → Prop
  | leaf {v : Value} : (∀ loc, v.datum ≠ .aggregate loc) → (∀ loc, v.datum = .box loc → loc < N) → Matches N s t v v
  | box {type : Option Ty} {loc loc' : Loc} {p q : Value} : s.boxes[loc]? = some p → t.boxes[loc']? = some q →
    Matches N s t p q → Matches N s t ⟨type, .box loc⟩ ⟨type, .box loc'⟩
  | struct {type : Option Ty} {loc loc' : Loc} {r r' : Record} :
    s.aggregates[loc]? = some r → t.aggregates[loc']? = some r' → r'.type = r.type →
    r'.fields.size = r.fields.size →
    (∀ (i : Nat) (x y : Value), r.fields[i]? = some x → r'.fields[i]? = some y → Matches N s t x y) →
    Matches N s t ⟨type, .aggregate loc⟩ ⟨type, .aggregate loc'⟩

theorem Grounded.sited (h : s.Grounded v) : s.Sited v := by
  induction h with
  | leaf hne _ => exact .leaf hne
  | struct hv hr _ ih => exact .struct hv hr ih

theorem Copied.isInline (h : s.Copied t v w) (hv : s.Grounded v) (hin : v.datum.isInline = true) :
    w.datum.isInline = true := by
  cases hv with
  | leaf hne => rwa [h.eq_of_ne hne]
  | struct hd hr =>
    obtain ⟨loc', r', rfl, -⟩ := h.of_struct hd hr
    rfl

theorem Copied.matches (h : s.Copied t v w) (hv : s.Grounded v) : s.Matches s.boxes.size t v w := by
  induction hv generalizing w with
  | leaf hne hbox =>
    obtain rfl := h.eq_of_ne hne
    exact .leaf hne hbox
  | @struct v loc r hv hr _ ih =>
    obtain ⟨loc', r', rfl, hr', htype, hsize, hfields⟩ := h.of_struct hv hr
    obtain ⟨type, d⟩ := v
    subst hv
    exact .struct hr hr' htype hsize fun i x y hx hy => ih x (mem_of_getElem? hx) (hfields i x y hx hy)

namespace Matches

theorem expands (h : s.Matches N t v w) (hs : s.Expands s') (ht : t.Expands t') : s'.Matches N t' v w := by
  induction h with
  | leaf hne hbox => exact .leaf hne hbox
  | box hp hq _ ih => exact .box (hs.boxes hp) (ht.boxes hq) ih
  | struct hr hr' htype hsize _ ih => exact .struct (hs.aggregates hr) (ht.aggregates hr') htype hsize ih

theorem sited (h : s.Matches N t v w) : s.Sited v ∧ t.Sited w := by
  induction h with
  | leaf hne _ => exact ⟨.leaf hne, .leaf hne⟩
  | box => exact ⟨.leaf nofun, .leaf nofun⟩
  | @struct type loc loc' r r' hr hr' _ hsize _ ih =>
    refine ⟨.struct rfl hr fun f hf => ?_, .struct rfl hr' fun f hf => ?_⟩
    · obtain ⟨i, hi, rfl⟩ := mem_iff_getElem.1 hf
      exact (ih i _ _ (getElem?_eq_getElem hi) (getElem?_eq_getElem (hsize ▸ hi))).1
    · obtain ⟨i, hi, rfl⟩ := mem_iff_getElem.1 hf
      exact (ih i _ _ (getElem?_eq_getElem (hsize ▸ hi)) (getElem?_eq_getElem hi)).2

theorem of_copied (h : s.Matches N t v w) (hv : s.Copied s' v v') (hw : t.Copied t' w w') (hs : s.Expands s')
    (ht : t.Expands t') : s'.Matches N t' v' w' := by
  induction h generalizing v' w' with
  | leaf hne hbox =>
    obtain rfl := hv.eq_of_ne hne
    obtain rfl := hw.eq_of_ne hne
    exact .leaf hne hbox
  | box hp hq hpq _ =>
    obtain rfl := hv.eq_of_ne nofun
    obtain rfl := hw.eq_of_ne nofun
    exact .box (hs.boxes hp) (ht.boxes hq) (hpq.expands hs ht)
  | @struct type loc loc' r r' hr hr' htype hsize _ ih =>
    obtain ⟨l, p, rfl, hp, hptype, hpsize, hpfields⟩ := hv.of_struct rfl hr
    obtain ⟨l', q, rfl, hq, hqtype, hqsize, hqfields⟩ := hw.of_struct rfl hr'
    refine .struct hp hq (by rw [hqtype, hptype, htype]) (by rw [hqsize, hpsize, hsize]) fun i x y hx hy => ?_
    -- the fields that `x` and `y` are copies of
    have hi := (Array.getElem?_eq_some_iff.1 hx).1
    obtain ⟨f, hf⟩ : ∃ f, r.fields[i]? = some f := ⟨_, Array.getElem?_eq_getElem (hpsize ▸ hi)⟩
    obtain ⟨g, hg⟩ : ∃ g, r'.fields[i]? = some g := ⟨_, Array.getElem?_eq_getElem (hsize ▸ hpsize ▸ hi)⟩
    exact ih i f g hf hg (hpfields i f x hf hx) (hqfields i g y hg hy)

theorem clone (h : s.Matches N t v w) :
    (clone v s).2.Matches N (clone w t).2 (clone v s).1 (clone w t).1 :=
  h.of_copied (copied_clone h.sited.1.nests) (copied_clone h.sited.2.nests) (.of_grows (.clone v s))
    (.of_grows (.clone w t))

end Matches

/-! ## Writes -/

theorem Inlines.reaches (h : s.Inlines v x) (hx : x.datum = .aggregate loc) :
    ∃ top, v.datum = .aggregate top ∧ Relation.ReflTransGen s.Inner loc top := by
  induction h with
  | self => exact ⟨loc, hx, .refl⟩
  | field hv hr hf _ ih =>
    obtain ⟨inner, hinner, hbelow⟩ := ih hx
    exact ⟨_, hv, hbelow.tail ⟨_, _, hr, hf, hinner⟩⟩

theorem Sited.not_occupies_field (h : s.Sited v) (hv : v.datum = .aggregate loc) (hr : s.aggregates[loc]? = some r)
    (hf : f ∈ r.fields) : ¬s.Occupies f loc := by
  rintro ⟨x, hx, hd⟩
  obtain ⟨top, htop, hbelow⟩ := hx.reaches hd
  exact Loc.not_below_itself (h.acc hv) (.tail' hbelow ⟨r, f, hr, hf, htop⟩)

theorem aggregates_setFieldOf_of_ne (h : loc' ≠ loc) :
    (s.setFieldOf (.aggregate loc) i x).aggregates[loc']? = s.aggregates[loc']? := by
  show (s.aggregates.modify loc _)[loc']? = _
  rw [getElem?_modify, if_neg (Ne.symm h)]

theorem aggregates_setFieldOf (hr : s.aggregates[loc]? = some r) :
    (s.setFieldOf (.aggregate loc) i x).aggregates[loc]? = some { r with fields := r.fields.setIfInBounds i x } := by
  show (s.aggregates.modify loc _)[loc]? = _
  rw [getElem?_modify, if_pos rfl, hr]
  rfl

theorem Copied.matches_elsewhere (h : s.Copied t v w) (hv : s.Grounded v) (hloc : ¬s.Occupies v loc)
    (hloc' : ¬t.Occupies w loc') :
    (s.setFieldOf (.aggregate loc) i x).Matches s.boxes.size (t.setFieldOf (.aggregate loc') i y) v w := by
  induction hv generalizing w with
  | leaf hne hbox =>
    obtain rfl := h.eq_of_ne hne
    exact .leaf hne hbox
  | @struct v top r hv hr _ ih =>
    obtain ⟨top', r', rfl, hr', htype, hsize, hfields⟩ := h.of_struct hv hr
    have hne : top ≠ loc := fun heq => hloc ⟨v, .self v, heq ▸ hv⟩
    have hne' : top' ≠ loc' := fun heq => hloc' ⟨_, .self _, heq ▸ rfl⟩
    obtain ⟨type, d⟩ := v
    subst hv
    refine .struct (by rw [aggregates_setFieldOf_of_ne hne, hr]) (by rw [aggregates_setFieldOf_of_ne hne', hr'])
      htype hsize fun j f g hf hg => ?_
    have hmem := mem_of_getElem? hf
    have hmem' := mem_of_getElem? hg
    exact ih f hmem (hfields j f g hf hg) (fun ⟨z, hz, hd⟩ => hloc ⟨z, .field rfl hr hmem hz, hd⟩)
      (fun ⟨z, hz, hd⟩ => hloc' ⟨z, .field rfl hr' hmem' hz, hd⟩)

theorem setField_of_aggregate (h : v.datum = .aggregate loc) :
    s.setField v i x = s.setFieldOf (.aggregate loc) i x := by
  unfold setField
  rw [h]
  rfl

theorem fields_of_scalar (h : v.datum.isInline = true) (hne : ∀ loc, v.datum ≠ .aggregate loc) :
    s.fields v = #[] ∧ ∀ i x, s.setField v i x = s := by
  unfold fields setField
  cases hd : v.datum with
  | aggregate loc => exact absurd hd (hne loc)
  | bool | int | float => exact ⟨rfl, fun _ _ => rfl⟩
  | _ =>
    rw [hd] at h
    cases h

/-- **A write** to a field of a value and of its copy, of something that lies elsewhere. -/
theorem Copied.matches_setField (h : s.Copied t v w) (hv : s.Grounded v) (hin : v.datum.isInline = true)
    (hxy : s.Copied t x y) (hx : s.Grounded x) (hout : ∀ loc, v.datum = .aggregate loc → ¬s.Occupies x loc)
    (hout' : ∀ loc, w.datum = .aggregate loc → ¬t.Occupies y loc) :
    (s.setField v i x).Matches s.boxes.size (t.setField w i y) v w := by
  have hmatches := h.matches hv
  cases hv with
  | leaf hne =>
    obtain rfl := h.eq_of_ne hne
    rwa [(fields_of_scalar hin hne).2, (fields_of_scalar hin hne).2]
  | struct hd hr hfields =>
    obtain ⟨loc', r', rfl, hr', htype, hsize, hcopies⟩ := h.of_struct hd hr
    obtain ⟨type, d⟩ := v
    subst hd
    rw [setField_of_aggregate rfl, setField_of_aggregate rfl]
    refine .struct (aggregates_setFieldOf hr) (aggregates_setFieldOf hr') htype
      (by rw [size_setIfInBounds, size_setIfInBounds, hsize]) fun j f g hf hg => ?_
    rw [getElem?_setIfInBounds] at hf hg
    by_cases hij : i = j
    · -- the field that is written
      rw [if_pos hij] at hf hg
      split at hf
      · rw [hsize, if_pos ‹_›] at hg
        cases hf
        cases hg
        exact hxy.matches_elsewhere hx (hout _ rfl) (hout' _ rfl)
      · cases hf
    · rw [if_neg hij] at hf hg
      have hmem := mem_of_getElem? hf
      have hmem' := mem_of_getElem? hg
      exact (hcopies j f g hf hg).matches_elsewhere (hfields f hmem)
        (hmatches.sited.1.not_occupies_field rfl hr hmem) (hmatches.sited.2.not_occupies_field rfl hr' hmem')

/-! ## Hash and text of a copy -/

/-- How deep a hash goes does not matter once it has reached everything. -/
theorem hashAt_of_nestsAt {U : Universe} {m : Nat} (h : s.nestsAt n v = true) (hnm : n ≤ m) (z : UInt32) :
    s.hashAt U m z v = s.hashAt U n z v := by
  induction n generalizing v m z with
  | zero => cases h
  | succ n ih =>
    obtain ⟨m, rfl⟩ : ∃ k, m = k + 1 := ⟨m - 1, by omega⟩
    cases hd : v.datum with
    | aggregate loc =>
      cases hr : s.aggregates[loc]? with
      | none => simp only [hashAt, hd, hr]
      | some r =>
        rw [hashAt_struct hd hr, hashAt_struct hd hr]
        rw [nestsAt_struct hd hr, List.all_eq_true] at h
        refine congrArg _ (funext fun type => foldlM_eq_of_forall₂ (List.forall₂_same.2 fun f hf => ?_) _)
        exact ih (h f hf) (by omega)
    | _ => simp only [hashAt, hd]

theorem Copied.hashAt {U : Universe} (h : s.Copied t v w) (hv : s.Sited v) (n : Nat) (z : UInt32) :
    t.hashAt U n z w = s.hashAt U n z v := by
  induction n generalizing v w z with
  | zero => rfl
  | succ n ih =>
    cases hv with
    | leaf hne =>
      obtain rfl := h.eq_of_ne hne
      cases hd : w.datum with
      | aggregate loc => exact absurd hd (hne loc)
      | _ => simp only [hashAt, hd]
    | @struct _ loc r hd hr hsited =>
      obtain ⟨loc', r', rfl, hr', -, hsize, hcopies⟩ := h.of_struct hd hr
      rw [hashAt_struct hd hr, hashAt_struct rfl hr']
      refine congrArg _ (funext fun type =>
        (foldlM_eq_of_forall₂ (forall₂_fields hsize fun j f g hf hg z => ?_) _).symm)
      exact (ih (hcopies j f g hf hg) (hsited f (mem_of_getElem? hf)) z).symm

theorem Copied.hash {U : Universe} (h : s.Copied t v w) (hv : s.Sited v) (hw : t.Sited w) (hx : s.Expands t)
    (hbox : ∀ loc, v.datum ≠ .box loc) (hbox' : ∀ loc, w.datum ≠ .box loc) : t.hash U w = s.hash U v := by
  unfold Store.hash
  rw [unboxed_of_ne hbox, unboxed_of_ne hbox', if_pos hv.nests, if_pos hw.nests, h.hashAt hv]
  exact hashAt_of_nestsAt hv.nests (Nat.succ_le_succ hx.size_le) hashStart

theorem Copied.text {U : Universe} (h : s.Copied t v w) (hv : s.Sited v) (hin : v.datum.isInline = true) :
    t.text U w = s.text U v := by
  cases hv with
  | leaf hne =>
    obtain rfl := h.eq_of_ne hne
    unfold text
    cases hd : w.datum with
    | aggregate loc => exact absurd hd (hne loc)
    | bool b => simp only [textAt, hd]
    | int k => simp only [textAt, hd]
    | float z => simp only [textAt, hd]
    | _ =>
      rw [hd] at hin
      cases hin
  | struct hd hr _ =>
    obtain ⟨loc', r', rfl, hr', htype, -, -⟩ := h.of_struct hd hr
    simp only [text, textAt, dynamicType, hd, hr, hr', Option.bind_some, htype]

theorem textAt_of_ne {U : Universe} {n m : Nat} (h : ∀ loc, v.datum ≠ .box loc) (hn : 0 < n) (hm : 0 < m) :
    textAt U s n v = textAt U s m v := by
  obtain ⟨n, rfl⟩ : ∃ k, n = k + 1 := ⟨n - 1, by omega⟩
  obtain ⟨m, rfl⟩ : ∃ k, m = k + 1 := ⟨m - 1, by omega⟩
  obtain ⟨type, d⟩ := v
  cases d with
  | box loc => exact absurd rfl (h loc)
  | _ => rfl

theorem text_of_box {U : Universe} (hv : v.datum = .box loc) (hw : s.boxes[loc]? = some w)
    (hbox : ∀ loc, w.datum ≠ .box loc) : s.text U v = s.text U w := by
  have hpos : 0 < s.boxes.size := Nat.zero_lt_of_lt (Array.getElem?_eq_some_iff.1 hw).1
  unfold text
  rw [show textAt U s (s.boxes.size + 1) v = textAt U s s.boxes.size w by simp only [textAt, hv, hw]]
  exact textAt_of_ne hbox hpos (Nat.succ_pos _)

end Store

/-! ## Typed values -/

def Universe.Stratified (U : Universe) : Prop :=
  ∀ i, ∀ f ∈ (U.decl (.declared i)).fields, U.isAggregate f.type = true → ∃ j, j < i ∧ f.type = .declared j

namespace Heap

variable {U : Universe} {F : Delegate → Signature → Prop} {w : Heap U F} {t : Store} {v x f a b a' b' : Value}
  {loc inner : Loc} {r : Record} {i : Nat}

theorem Typed.grounded_of_ne (hw : w.Typed) (hv : w.Proper v) (hne : ∀ loc, v.datum ≠ .aggregate loc) :
    w.store.Grounded v := by
  refine .leaf hne fun loc hloc => ?_
  unfold Proper at hv
  rw [hloc] at hv
  obtain ⟨p, u, hp, -⟩ := hw _ hv.1
  exact (Array.getElem?_eq_some_iff.1 hp).1

/-- The fields of a struct are proper, and the structs among them are of types that were declared before. -/
theorem Typed.field (hU : U.Declared) (hs : U.Stratified) (hw : w.Typed) (hk : w.known (.aggregate loc))
    (hn : w.store.nominal (.aggregate loc) = some (.declared i)) (hr : w.store.aggregates[loc]? = some r)
    (hf : f ∈ r.fields) : w.Proper f ∧ ∀ inner, f.datum = .aggregate inner → ∃ j, j < i ∧
      w.store.nominal (.aggregate inner) = some (.declared j) := by
  obtain ⟨r', u, hr', htype, hagg, hfills⟩ := hw _ hk
  obtain rfl := Option.some.inj (hr.symm.trans hr')
  obtain rfl : u = .declared i := by
    rw [nominal, hr] at hn
    exact Option.some.inj (htype.symm.trans hn)
  refine ⟨hfills.proper f (mem_toList_iff.2 hf), fun inner hinner => ?_⟩
  rw [Fills, hU.layout_of_aggregate hagg] at hfills
  obtain ⟨k, hk, rfl⟩ := List.getElem_of_mem (mem_toList_iff.2 hf)
  have hk' : k < (U.decl (.declared i)).fields.length := by
    have := List.Forall₂.length_eq hfills
    rw [List.length_map] at this
    omega
  have hty := List.Forall₂.get hfills hk (by rwa [List.length_map])
  rw [List.get_eq_getElem, List.get_eq_getElem, List.getElem_map] at hty
  -- what is a struct is of a struct type
  generalize r.fields.toList[k] = f at hinner hty
  obtain ⟨type, d⟩ := f
  subst hinner
  obtain ⟨u, hu, -, hu', -, hnominal⟩ := hty.aggregate
  cases hu
  obtain ⟨j, hj, heq⟩ := hs i _ (List.getElem_mem hk') hu'
  exact ⟨j, hj, heq ▸ hnominal⟩

/-- **Typed values are grounded**: structs in structs come to an end with the first declaration. -/
theorem Typed.grounded (hU : U.Declared) (hs : U.Stratified) (hw : w.Typed) (hv : w.Proper v) :
    w.store.Grounded v := by
  suffices hstruct : ∀ (i : Nat) (v : Value) (loc : Loc), w.Proper v → v.datum = .aggregate loc →
      w.store.nominal (.aggregate loc) = some (.declared i) → w.store.Grounded v by
    by_cases hd : ∃ loc, v.datum = .aggregate loc
    · obtain ⟨loc, hd⟩ := hd
      have hproper := hv
      unfold Proper at hv
      rw [hd] at hv
      obtain ⟨-, u, hu, -, hagg⟩ := hv
      obtain ⟨i, rfl⟩ := hU.eq_declared_of_aggregate hagg
      exact hstruct i v loc hproper hd hu
    · exact hw.grounded_of_ne hv fun loc hloc => hd ⟨loc, hloc⟩
  intro i
  induction i using Nat.strongRecOn with
  | ind i ih =>
    intro v loc hv hd hn
    unfold Proper at hv
    rw [hd] at hv
    obtain ⟨r, u, hr, -⟩ := hw _ hv.1
    refine .struct hd hr fun f hf => ?_
    obtain ⟨hproper, hinner⟩ := hw.field hU hs hv.1 hn hr hf
    by_cases hfd : ∃ inner, f.datum = .aggregate inner
    · obtain ⟨inner, hfd⟩ := hfd
      obtain ⟨j, hj, hnominal⟩ := hinner inner hfd
      exact ih j hj f inner hproper hfd hnominal
    · exact hw.grounded_of_ne hproper fun loc hloc => hfd ⟨loc, hloc⟩

theorem Typed.nominal_of_inlines (hU : U.Declared) (hs : U.Stratified) (hw : w.Typed) (hin : w.store.Inlines v x)
    (hx : x.datum = .aggregate loc) (hv : w.Proper v) (hd : v.datum = .aggregate inner)
    (hn : w.store.nominal (.aggregate inner) = some (.declared i)) :
    ∃ j, j ≤ i ∧ w.store.nominal (.aggregate loc) = some (.declared j) := by
  induction hin generalizing inner i with
  | self =>
    obtain rfl := Datum.aggregate.inj (hx.symm.trans hd)
    exact ⟨i, Nat.le_refl i, hn⟩
  | field hv' hr hf hin ih =>
    obtain rfl := Datum.aggregate.inj (hd.symm.trans hv')
    obtain ⟨top, htop, -⟩ := hin.reaches hx
    unfold Proper at hv
    rw [hd] at hv
    obtain ⟨hproper, hinner⟩ := hw.field hU hs hv.1 hn hr hf
    obtain ⟨k, hk, hnominal⟩ := hinner top htop
    obtain ⟨j, hj, hloc⟩ := ih hx hproper htop hnominal
    exact ⟨j, by omega, hloc⟩

theorem Typed.closed (hw : w.Typed) : w.store.Closed w.Proper where
  unboxed := hw.proper_unboxed
  fields {v loc r} hv hd hr f hf := by
    unfold Proper at hv
    rw [hd] at hv
    obtain ⟨r', u, hr', -, -, hfills⟩ := hw _ hv.1
    obtain rfl := Option.some.inj (hr.symm.trans hr')
    exact hfills.proper f (mem_toList_iff.2 hf)
  size {v v' x y p q} hv hv' hx hy hp hq htype := by
    have hsize : ∀ {v : Value} {x : Loc} {p : Record}, w.Proper v → v.datum = .aggregate x →
        w.store.aggregates[x]? = some p → ∃ u, p.type = some u ∧ p.fields.size = (U.layout u).length := by
      intro v x p hv hx hp
      unfold Proper at hv
      rw [hx] at hv
      obtain ⟨p', u, hp', hpu, -, hfills⟩ := hw _ hv.1
      obtain rfl := Option.some.inj (hp.symm.trans hp')
      have hlength := List.Forall₂.length_eq hfills
      rw [List.length_map, length_toList] at hlength
      exact ⟨u, hpu, hlength⟩
    obtain ⟨u, hu, hsp⟩ := hsize hv hx hp
    obtain ⟨u', hu', hsq⟩ := hsize hv' hy hq
    obtain rfl := Option.some.inj (hu.symm.trans (htype.trans hu'))
    rw [hsp, hsq]

/-! ## Equality with a copy -/

theorem Typed.covers (hU : U.Declared) (hs : U.Stratified) (hw : w.Typed) : w.store.Covers w.Proper where
  sited hv := (hw.grounded hU hs hv).sited
  boxed hv hloc := by
    have hproper := hw.proper_unboxed hv
    unfold Proper at hv
    rw [hloc] at hv
    obtain ⟨p, u, hp, -⟩ := hw _ hv.1
    rw [unboxed_of_box hloc hp] at hproper
    exact ⟨p, hp, hproper⟩
  fields := hw.closed.fields

theorem Typed.equal_copied (hU : U.Declared) (hs : U.Stratified) (hw : w.Typed) (hx : w.store.Expands t)
    (ha : w.Proper a) (hb : w.Proper b) (hc : w.store.Copied t a a') (hc' : w.store.Copied t b b') :
    t.equal a' b' = w.store.equal a b := by
  have hat := (hw.covers hU hs).equalAt_copied hx ha hb hc hc' (t.aggregates.size + 1)
  unfold equal
  rw [hat, Bool.eq_iff_iff]
  refine ⟨fun heq => (hw.closed.equal_iff ha hb).2 ⟨_, heq⟩, fun heq => hw.closed.equalAt_of_lt ha hb heq ?_⟩
  have hrank : w.store.partRank a ≤ w.store.aggregates.size := by
    by_cases hstruct : ∃ loc, (w.store.unboxed a).datum = .aggregate loc
    · obtain ⟨loc, hloc⟩ := hstruct
      rw [partRank_of_eq hloc]
      exact Loc.rank_le _ _ _
    · rw [partRank_of_ne fun loc hloc => hstruct ⟨loc, hloc⟩]
      exact Nat.zero_le _
  exact Nat.lt_succ_of_le (Nat.le_trans hrank hx.size_le)

/-- Two pairs of values, the second of copies of the first. -/
structure Copies (w : Heap U F) (t : Store) (ab ab' : Value × Value) : Prop where
  left : w.Proper ab.1
  right : w.Proper ab.2
  first : w.store.Copied t ab.1 ab'.1
  second : w.store.Copied t ab.2 ab'.2

theorem forall₂_through {α β : Type} {R : α → β → Prop} {p : α → Bool} {q : β → Bool} {xs : List α} {ys : List β}
    (hpq : ∀ {x y}, R x y → q y = p x) (h : List.Forall₂ R xs ys) :
    List.Forall₂ R (through p xs) (through q ys) := by
  induction h with
  | nil => exact .nil
  | cons hxy _ ih =>
    rw [through, through, hpq hxy]
    split
    · exact .cons hxy ih
    · exact .cons hxy .nil

theorem forall₂_zip {α β γ δ : Type} {R : α → γ → Prop} {S : β → δ → Prop} {xs : List α} {ys : List β} {zs : List γ}
    {ts : List δ} (h : List.Forall₂ R xs zs) (h' : List.Forall₂ S ys ts) :
    List.Forall₂ (fun x y => R x.1 y.1 ∧ S x.2 y.2) (xs.zip ys) (zs.zip ts) := by
  induction h generalizing ys ts with
  | nil => exact .nil
  | cons hx _ ih =>
    cases h' with
    | nil => exact .nil
    | cons hy hys => exact .cons ⟨hx, hy⟩ (ih hys)

theorem Typed.compared_copied (hU : U.Declared) (hs : U.Stratified) (hw : w.Typed) (hx : w.store.Expands t)
    {ab ab' : Value × Value} (h : w.Copies t ab ab') :
    List.Forall₂ (w.Copies t) (w.store.compared ab) (t.compared ab') := by
  have hcovers := hw.covers hU hs
  obtain ⟨hpa, hua⟩ := hcovers.unboxed hx h.left h.first
  obtain ⟨hpb, hub⟩ := hcovers.unboxed hx h.right h.second
  unfold compared
  generalize w.store.unboxed ab.1 = x, t.unboxed ab'.1 = x' at *
  generalize w.store.unboxed ab.2 = y, t.unboxed ab'.2 = y' at *
  cases hcovers.sited hpa with
  | leaf hne =>
    obtain rfl := hua.eq_of_ne hne
    cases hd : x'.datum with
    | aggregate loc => exact absurd hd (hne loc)
    | _ => exact .nil
  | struct hd hr =>
    obtain ⟨loc, p', rfl, hr', htype, hsize, hcopies⟩ := hua.of_struct hd hr
    rw [hd]
    cases hcovers.sited hpb with
    | leaf hne =>
      obtain rfl := hub.eq_of_ne hne
      cases hd' : y'.datum with
      | aggregate loc => exact absurd hd' (hne loc)
      | _ => exact .nil
    | struct hd' hq =>
      obtain ⟨loc', q', rfl, hq', htype', hsize', hcopies'⟩ := hub.of_struct hd' hq
      simp only [hd', hr, hr', hq, hq', htype, htype']
      split
      · -- the fields are copies, and are equal where the copies are
        have hfields := forall₂_zip
          (forall₂_fields (R := fun f f' => w.Proper f ∧ w.store.Copied t f f') hsize fun i f f' hf hf' =>
            ⟨hcovers.fields hpa hd hr f (mem_of_getElem? hf), hcopies i f f' hf hf'⟩)
          (forall₂_fields (R := fun g g' => w.Proper g ∧ w.store.Copied t g g') hsize' fun i g g' hg hg' =>
            ⟨hcovers.fields hpb hd' hq g (mem_of_getElem? hg), hcopies' i g g' hg hg'⟩)
        refine forall₂_through (fun {fg fg'} h => hw.equal_copied hU hs hx h.left h.right h.first h.second)
          (hfields.imp fun _ _ h => ⟨h.1.1, h.2.1, h.1.2, h.2.2⟩)
      · exact .nil

theorem Typed.compares_copied (hU : U.Declared) (hs : U.Stratified) (hw : w.Typed) (hx : w.store.Expands t)
    (ha : w.Proper a) (hb : w.Proper b) (hc : w.store.Copied t a a') (hc' : w.store.Copied t b b') :
    t.compares a' b' = w.store.compares a b := by
  rw [Bool.eq_iff_iff, compares_iff, compares_iff]
  refine exists_congr fun n => ?_
  have hcopies : w.Copies t (a, b) (a', b') := ⟨ha, hb, hc, hc'⟩
  rw [descends_of_forall₂ (hw.compared_copied hU hs hx) n hcopies]

end Heap

end TreeMachine
