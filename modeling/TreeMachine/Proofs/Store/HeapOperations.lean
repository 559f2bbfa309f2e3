import TreeMachine.Proofs.Store.Operations
import TreeMachine.Proofs.Store.Typing

/-!
# Operations on typed heaps

What is read from a known location is of its type, and writing a value of that type keeps the heap typed
(`Heap.Typed.change`). Making and copying values adds locations that are known from then on
(`Heap.Makes`).
-/

open Array Option

namespace TreeMachine

open Store Universe

def Store.SameAt (s' s : Store) : Datum → Prop
  | .aggregate loc => s'.aggregates[loc]? = s.aggregates[loc]?
  | .object loc => s'.objects[loc]? = s.objects[loc]?
  | .box loc => s'.boxes[loc]? = s.boxes[loc]?
  | .array loc => s'.arrays[loc]? = s.arrays[loc]?
  | .cell loc => s'.cells[loc]? = s.cells[loc]?
  | .delegate loc => s'.delegates[loc]? = s.delegates[loc]?
  | _ => True

theorem Store.SameAt.nominal {s' s : Store} {d : Datum} (h : s'.SameAt s d) : s'.nominal d = s.nominal d := by
  cases d <;> simp_all [Store.SameAt, Store.nominal]

def Store.Grows (s s' : Store) : Prop := ∃ rs, s' = { s with aggregates := s.aggregates ++ rs }

namespace Store.Grows

variable {s s' s'' : Store}

theorem refl (s : Store) : s.Grows s := ⟨#[], by rw [append_empty]⟩

theorem trans (h : s.Grows s') (h' : s'.Grows s'') : s.Grows s'' := by
  obtain ⟨rs, rfl⟩ := h
  obtain ⟨rs', rfl⟩ := h'
  exact ⟨rs ++ rs', by rw [append_assoc]⟩

theorem makeAll {α : Type} {make : α → Store → Value × Store} (h : ∀ x (s : Store), s.Grows (make x s).2)
    (xs : List α) (s : Store) : s.Grows (makeAll make xs s).2 := by
  induction xs using List.reverseRecOn with
  | nil => exact .refl s
  | append_singleton xs x ih =>
    rw [makeAll_concat]
    exact ih.trans (h x _)

theorem cloneAt (source : Store) (n : Nat) (v : Value) (s : Store) : s.Grows (Store.cloneAt source n v s).2 := by
  induction n generalizing v s with
  | zero => exact .refl s
  | succ n ih =>
    unfold Store.cloneAt
    split
    · split
      · exact (makeAll (fun f s => ih f s) _ s).trans ⟨#[_], rfl⟩
      · exact .refl s
    · exact .refl s

theorem clone (v : Value) (s : Store) : s.Grows (Store.clone v s).2 := by
  unfold Store.clone
  split
  · exact cloneAt s _ v s
  · exact .refl s

end Store.Grows

namespace Heap

variable {U : Universe} {F : Delegate → Signature → Prop} {w w' : Heap U F} {d : Datum} {s : Store}

/-! ## Changing a heap -/

theorem Content.of_sameAt (h : w.Content d) (hext : w'.Extends w) (hs : w'.store.SameAt w.store d) : w'.Content d := by
  cases d with
  | aggregate loc =>
    obtain ⟨r, t, hr, ht, ha, hf⟩ := h
    exact ⟨r, t, hs.trans hr, ht, ha, HaveTypes.mono hf hext⟩
  | object loc =>
    obtain ⟨r, t, hr, ht, hc, hf⟩ := h
    exact ⟨r, t, hs.trans hr, ht, hc, HaveTypes.mono hf hext⟩
  | box loc =>
    obtain ⟨v, t, hv, ht, hb, hp⟩ := h
    exact ⟨v, t, hs.trans hv, ht, hb, hp.mono hext⟩
  | array loc =>
    obtain ⟨a, ha, hitems⟩ := h
    exact ⟨a, hs.trans ha, fun v hv => (hitems v hv).mono hext⟩
  | cell loc =>
    obtain ⟨c, t, hc, ht, hv⟩ := h
    exact ⟨c, t, hs.trans hc, ht, hv.mono hext⟩
  | delegate loc =>
    obtain ⟨x, hx, hruns⟩ := h
    exact ⟨x, hs.trans hx, hruns.mono hext⟩
  | _ => trivial

theorem Typed.change (hw : w.Typed) (hext : w'.Extends w)
    (h : ∀ d, w'.known d → (w.known d ∧ w'.store.SameAt w.store d) ∨ w'.Content d) : w'.Typed := by
  intro d hd
  rcases h d hd with ⟨hk, hs⟩ | hc
  · exact (hw d hk).of_sameAt hext hs
  · exact hc

def withStore (w : Heap U F) (s : Store) : Heap U F := ⟨s, w.known⟩

def add (w : Heap U F) (d : Datum) (s : Store) : Heap U F := ⟨s, fun x => w.known x ∨ x = d⟩

theorem Typed.add (hw : w.Typed) (hs : ∀ x, w.Content x → s.SameAt w.store x)
    (hnew : (w.add d s).Extends w → (w.add d s).Content d) : (w.add d s).Extends w ∧ (w.add d s).Typed := by
  have hext : (w.add d s).Extends w :=
    ⟨fun _ h => .inl h, fun x h => (hs x (hw x h)).nominal, fun loc h => hs (.delegate loc) (hw _ h)⟩
  refine ⟨hext, hw.change hext fun x hx => ?_⟩
  rcases hx with hx | rfl
  · exact .inl ⟨hx, hs x (hw x hx)⟩
  · exact .inr (hnew hext)

/-- Another content of one location, where the others stay what they are. -/
theorem Typed.write (hw : w.Typed) (hd : ∀ loc, d ≠ .delegate loc) (hn : s.nominal d = w.store.nominal d)
    (hs : ∀ x, x ≠ d → s.SameAt w.store x) (hnew : (w.withStore s).Extends w → (w.withStore s).Content d) :
    (w.withStore s).Extends w ∧ (w.withStore s).Typed := by
  have hext : (w.withStore s).Extends w := by
    refine ⟨fun _ h => h, fun x _ => ?_, fun loc _ => hs (.delegate loc) (hd loc).symm⟩
    by_cases hx : x = d
    · rw [hx]
      exact hn
    · exact (hs x hx).nominal
  refine ⟨hext, hw.change hext fun x hx => ?_⟩
  by_cases heq : x = d
  · rw [heq]
    exact .inr (hnew hext)
  · exact .inl ⟨hx, hs x heq⟩

theorem Typed.grow (hw : w.Typed) (h : w.store.Grows s) : (w.withStore s).Extends w ∧ (w.withStore s).Typed := by
  obtain ⟨rs, rfl⟩ := h
  have hsame : ∀ x, w.Content x → Store.SameAt { w.store with aggregates := w.store.aggregates ++ rs } w.store x := by
    intro x hx
    cases x with
    | aggregate loc =>
      obtain ⟨_, _, hr, -⟩ := hx
      exact Array.getElem?_append_left (Array.getElem?_eq_some_iff.1 hr).1
    | _ => first | rfl | trivial
  have hext : (w.withStore { w.store with aggregates := w.store.aggregates ++ rs }).Extends w :=
    ⟨fun _ h => h, fun x h => (hsame x (hw x h)).nominal, fun loc h => hsame (.delegate loc) (hw _ h)⟩
  exact ⟨hext, hw.change hext fun x hx => .inl ⟨hx, hsame x (hw x hx)⟩⟩

/-! ## Adding locations -/

section Adding

variable {d : Datum}

theorem getElem?_push_of_some {α : Type} {xs : Array α} {i : Nat} {a x : α} (h : xs[i]? = some a) :
    (xs.push x)[i]? = xs[i]? := by
  have hlt : i < xs.size := (Array.getElem?_eq_some_iff.1 h).1
  rw [Array.getElem?_push, if_neg (Nat.ne_of_lt hlt)]

/-- What is there stays where it is when storage is added. -/
theorem sameAt_add (h : w.Content d) :
    (∀ r, (w.store.addAggregate r).2.SameAt w.store d) ∧ (∀ r, (w.store.addObject r).2.SameAt w.store d) ∧
    (∀ v, (w.store.addBox v).2.SameAt w.store d) ∧ (∀ a, (w.store.addArray a).2.SameAt w.store d) ∧
    (∀ c, (w.store.addCell c).2.SameAt w.store d) ∧ ∀ x, (w.store.addDelegate x).2.SameAt w.store d := by
  refine ⟨fun _ => ?_, fun _ => ?_, fun _ => ?_, fun _ => ?_, fun _ => ?_, fun _ => ?_⟩ <;> cases d <;>
    first | rfl | trivial | skip
  all_goals
    first
    | obtain ⟨_, hr, -⟩ := h; exact getElem?_push_of_some hr
    | obtain ⟨_, _, hr, -⟩ := h; exact getElem?_push_of_some hr

end Adding

def Makes (w : Heap U F) (r : Value × Store) (t : Option Ty) : Prop :=
  ∃ w' : Heap U F, w'.store = r.2 ∧ w'.Extends w ∧ w'.Typed ∧ w'.HasType r.1 t

def MakesAll (w : Heap U F) (r : Array Value × Store) (ts : List (Option Ty)) : Prop :=
  ∃ w' : Heap U F, w'.store = r.2 ∧ w'.Extends w ∧ w'.Typed ∧ w'.HaveTypes r.1.toList ts

theorem Makes.refl (hw : w.Typed) {v : Value} {t : Option Ty} (hv : w.HasType v t) :
    w.Makes (v, w.store) t := ⟨w, rfl, .refl w, hw, hv⟩

theorem makesAll_makeAll {α : Type} {make : α → Store → Value × Store} {xs : List α}
    {ts : List (Option Ty)} (hw : w.Typed) (h : List.Forall₂ (fun x t => ∀ w' : Heap U F, w'.Extends w → w'.Typed →
      w'.Makes (make x w'.store) t) xs ts) : w.MakesAll (makeAll make xs w.store) ts := by
  -- the values made so far are of the types that come first
  suffices hfold : ∀ (w₁ : Heap U F) (acc : Array Value) (done : List (Option Ty)), w₁.Extends w →
      w₁.Typed → w₁.HaveTypes acc.toList done → w.MakesAll
        (xs.foldl (fun p x => (p.1.push (make x p.2).1, (make x p.2).2)) (acc, w₁.store)) (done ++ ts) from
    hfold w #[] [] (.refl w) hw .nil
  induction h with
  | nil =>
    intro w₁ acc done hext h₁ hacc
    rw [List.append_nil]
    exact ⟨w₁, rfl, hext, h₁, hacc⟩
  | @cons x t xs ts hx _ ih =>
    intro w₁ acc done hext h₁ hacc
    obtain ⟨w₂, hstore, hext₂, h₂, hv⟩ := hx w₁ hext h₁
    have hsnoc : w₂.HaveTypes (acc.push (make x w₁.store).1).toList (done ++ [t]) := by
      rw [toList_push]
      exact List.rel_append (hacc.mono hext₂) (.cons hv .nil)
    have hrest := ih w₂ _ _ (hext.trans hext₂) h₂ hsnoc
    rw [List.append_assoc, hstore] at hrest
    exact hrest

/-! ### Fresh storage -/

section Making

variable {t : Ty} {fields : Array Value} {s : Store}

theorem MakesAll.addAggregate (ht : U.isAggregate t = true)
    (h : w.MakesAll (fields, s) ((U.layout t).map fun f => some f.type)) :
    w.Makes (⟨some t, .aggregate (s.addAggregate ⟨some t, fields⟩).1⟩,
      (s.addAggregate ⟨some t, fields⟩).2) (some t) := by
  obtain ⟨w₁, rfl, hext, h₁, hf⟩ := h
  have hat : (w₁.store.addAggregate ⟨some t, fields⟩).2.aggregates[w₁.store.aggregates.size]? =
      some ⟨some t, fields⟩ := getElem?_push_size
  obtain ⟨hext₂, h₂⟩ := h₁.add (d := .aggregate w₁.store.aggregates.size)
    (fun _ hx => (sameAt_add hx).1 ⟨some t, fields⟩)
    fun hnew => ⟨_, t, hat, rfl, ht, hf.mono hnew⟩
  refine ⟨_, rfl, hext.trans hext₂, h₂, (hasType_aggregate ht).2 ⟨_, rfl, .inr rfl, ?_⟩⟩
  exact congrArg (bind · (·.type)) hat

theorem MakesAll.addObject (hU : U.Regular) (ht : (U.decl t).form = .classType) (hne : t ≠ .null)
    (h : w.MakesAll (fields, s) ((U.layout t).map fun f => some f.type)) :
    w.Makes (⟨some t, .object (s.addObject ⟨some t, fields⟩).1⟩, (s.addObject ⟨some t, fields⟩).2) (some t) := by
  obtain ⟨w₁, rfl, hext, h₁, hf⟩ := h
  have hat : (w₁.store.addObject ⟨some t, fields⟩).2.objects[w₁.store.objects.size]? =
      some ⟨some t, fields⟩ := getElem?_push_size
  obtain ⟨hext₂, h₂⟩ := h₁.add (d := .object w₁.store.objects.size)
    (fun _ hx => (sameAt_add hx).2.1 ⟨some t, fields⟩)
    fun hnew => ⟨_, t, hat, rfl, ht, hf.mono hnew⟩
  have hn : (w₁.store.addObject ⟨some t, fields⟩).2.nominal (.object w₁.store.objects.size) = some t := by
    rw [nominal, hat]
    rfl
  refine ⟨_, rfl, hext.trans hext₂, h₂, ?_⟩
  exact (hasType_reference hU (isValue_of_class ht)).2 (.inr ⟨t, .object (.inr rfl) hn ht hne, .refl⟩)

theorem hasType_scalarZero (hs : U.isScalar t = true) : w.HasType (scalarZero U t) (some t) := by
  rw [hasType_scalar_iff hs]
  have hp : ∃ p, U.primitive? t = some p := by
    unfold isScalar storage at hs
    unfold primitive?
    cases hform : (U.decl t).form <;> simp_all
  obtain ⟨p, hp⟩ := hp
  unfold scalarZero
  rw [hp]
  cases p <;> exact ⟨rfl, rfl⟩

/-- The zero of a type, for which the structs in it have to be declared one after the other. -/
theorem makes_zeroAt (hU : U.Regular) (n : Nat) (hn : 0 < n)
    (hnest : ∀ i, t = .declared i → U.isAggregate t = true → i + 2 ≤ n) (hw : w.Typed) :
    w.Makes (zeroAt U n t w.store) (some t) := by
  induction n generalizing t w with
  | zero => exact absurd hn (Nat.lt_irrefl 0)
  | succ n ih =>
    have hnull : U.isValue t = false → w.Makes (.nilOf (some t), w.store) (some t) := fun hv =>
      .refl hw (hasType_null hU rfl hv)
    unfold zeroAt
    split
    · rename_i hs
      exact .refl hw (hasType_scalarZero (decide_eq_true hs))
    · rename_i hs
      have ha : U.isAggregate t = true := decide_eq_true hs
      obtain ⟨i, rfl⟩ := hU.declared.eq_declared_of_aggregate ha
      have hi := hnest i rfl ha
      refine MakesAll.addAggregate ha ?_
      rw [hU.declared.layout_of_aggregate ha]
      refine makesAll_makeAll hw (List.forall₂_map_right_iff.2 (List.forall₂_same.2 ?_))
      intro f hf w' _ hw'
      refine ih (by omega) (fun j hj hja => ?_) hw'
      -- a struct in a field was declared before
      obtain ⟨k, hk, hfk⟩ := hU.nested i f hf hja
      rw [hj] at hfk
      cases hfk
      omega
    · rename_i hs
      exact hnull (by rw [isValue, hs]; rfl)
    · rename_i hs
      exact hnull (by rw [isValue, hs]; rfl)

theorem makes_zero (hU : U.Regular) (t : Ty) (hw : w.Typed) : w.Makes (zero U t w.store) (some t) := by
  refine makes_zeroAt hU _ (Nat.succ_pos _) (fun i hi ha => ?_) hw
  subst hi
  have hk : U.Knows (.declared i) := hU.declared.knows_of_aggregate ha
  simp only [Universe.Knows] at hk
  omega

theorem makesAll_zeros (hU : U.Regular) (hw : w.Typed) (fs : List Field) :
    w.MakesAll (makeAll (fun (f : Field) s => zero U f.type s) fs w.store)
      (fs.map fun f => some f.type) := by
  refine makesAll_makeAll hw (List.forall₂_map_right_iff.2 (List.forall₂_same.2 ?_))
  exact fun f _ w' _ hw' => makes_zero hU f.type hw'

theorem makes_newAggregate (hU : U.Regular) (ht : U.isAggregate t = true) (hw : w.Typed) :
    w.Makes (newAggregate U t w.store) (some t) := by
  have hfields := makesAll_zeros hU hw (U.decl t).fields
  rw [← congrArg (List.map fun (f : Field) => some f.type) (hU.declared.layout_of_aggregate ht)] at hfields
  exact MakesAll.addAggregate ht hfields

theorem makes_newObject (hU : U.Regular) (ht : (U.decl t).form = .classType) (hne : t ≠ .null) (hw : w.Typed) :
    w.Makes (newObject U (some t) w.store) (some t) :=
  MakesAll.addObject hU ht hne (makesAll_zeros hU hw (U.layout t))

theorem makes_newArrayOf (hU : U.Regular) {items : Array Value} (hw : w.Typed)
    (h : ∀ v ∈ items, w.HasType v (some t)) : w.Makes (newArrayOf t items w.store) (some (.array t)) := by
  have hat : (w.store.addArray ⟨t, items⟩).2.arrays[w.store.arrays.size]? = some ⟨t, items⟩ :=
    getElem?_push_size
  obtain ⟨hext, hw'⟩ := hw.add (d := .array w.store.arrays.size)
    (fun _ hx => (sameAt_add hx).2.2.2.1 ⟨t, items⟩) fun hnew => ⟨_, hat, fun v hv => (h v hv).mono hnew⟩
  have hn : (w.store.addArray ⟨t, items⟩).2.nominal (.array w.store.arrays.size) = some (.array t) := by
    rw [nominal, hat]
    rfl
  exact ⟨_, rfl, hext, hw', (hasType_reference hU rfl).2 (.inr ⟨_, .array (.inr rfl) hn, .refl⟩)⟩

theorem HaveTypes.of_replicate {vs : List Value} {n : Nat} {t : Option Ty}
    (h : w.HaveTypes vs (List.replicate n t)) : ∀ v ∈ vs, w.HasType v t := by
  intro v hv
  obtain ⟨i, hi, rfl⟩ := List.getElem_of_mem hv
  have hlen := List.Forall₂.length_eq h
  have hvt := List.Forall₂.get h hi (hlen ▸ hi)
  simpa using hvt

theorem makes_newArray (hU : U.Regular) (n : Nat) (hw : w.Typed) :
    w.Makes (newArray U t n w.store) (some (.array t)) := by
  have hitems : w.MakesAll (makeAll (fun _ s => zero U t s) (List.replicate n ()) w.store)
      (List.replicate n (some t)) := by
    refine makesAll_makeAll hw (List.forall₂_iff_get.2 ⟨by simp, fun i _ _ => ?_⟩)
    intro w' _ hw'
    simpa using makes_zero hU t hw'
  obtain ⟨w₁, hstore, hext, h₁, hvs⟩ := hitems
  obtain ⟨w₂, hstore₂, hext₂, h₂, hv⟩ := makes_newArrayOf hU h₁ fun v hv =>
    hvs.of_replicate v (mem_toList_iff.2 hv)
  rw [hstore] at hstore₂ hv
  exact ⟨w₂, hstore₂, hext.trans hext₂, h₂, hv⟩

theorem makes_addDelegate (hU : U.Regular) {x : Delegate} {sig : Signature} (hsig : U.signature? t = some sig)
    (hserves : x.Serves F sig) (hruns : w.Runs x) (hw : w.Typed) :
    w.Makes (⟨some t, .delegate (w.store.addDelegate x).1⟩, (w.store.addDelegate x).2) (some t) := by
  have hat : (w.store.addDelegate x).2.delegates[w.store.delegates.size]? = some x :=
    getElem?_push_size
  obtain ⟨hext, hw'⟩ := hw.add (d := .delegate w.store.delegates.size)
    (fun _ hx => (sameAt_add hx).2.2.2.2.2 x) fun hnew => ⟨_, hat, hruns.mono hnew⟩
  refine ⟨_, rfl, hext, hw', (hasType_reference hU (isValue_of_delegate hsig)).2 (.inr ⟨t, ?_, .refl⟩)⟩
  exact .delegate (.inr rfl) hat hsig hserves

end Making

/-! ### Copies -/

section Copying

variable {v : Value} {t : Option Ty}

theorem HasType.aggregate {ty : Option Ty} {loc : Loc} (h : w.HasType ⟨ty, .aggregate loc⟩ t) :
    ∃ u, t = some u ∧ ty = some u ∧ U.isAggregate u = true ∧ w.known (.aggregate loc) ∧
      w.store.nominal (.aggregate loc) = some u := by
  cases t with
  | none => cases h
  | some u =>
    cases hv : U.isValue u with
    | false => cases h.2.2 hv
    | true =>
      rcases scalar_or_aggregate hv with hs | hs
      · have hd := ((hasType_scalar_iff hs).1 h).2
        unfold Datum.isOf at hd
        split at hd <;> contradiction
      · obtain ⟨loc', heq, hk, hn⟩ := (hasType_aggregate hs).1 h
        cases heq
        exact ⟨u, rfl, rfl, hs, hk, hn⟩

theorem makes_cloneAt {w₀ : Heap U F} (n : Nat) (hw₀ : w₀.Typed) (h : w₀.HasType v t) (hext : w.Extends w₀)
    (hw : w.Typed) : w.Makes (cloneAt w₀.store n v w.store) t := by
  induction n generalizing w v t with
  | zero => exact .refl hw (h.mono hext)
  | succ n ih =>
    obtain ⟨ty, d⟩ := v
    cases d with
    | aggregate loc =>
      obtain ⟨u, rfl, rfl, hu, hk, hn⟩ := h.aggregate
      obtain ⟨r, u', hr, hty, -, hfields⟩ := hw₀ _ hk
      obtain rfl : u' = u := by
        rw [nominal, hr, bind_some, hty] at hn
        exact some.inj hn
      have hcopies : w.MakesAll (makeAll (fun f s => cloneAt w₀.store n f s) r.fields.toList w.store)
          ((U.layout u').map fun f => some f.type) :=
        makesAll_makeAll hw (hfields.imp fun x t hx (w' : Heap U F) hext' hw' => ih hx (hext.trans hext') hw')
      unfold cloneAt
      simp only [hr, hty]
      exact MakesAll.addAggregate hu hcopies
    | _ => exact .refl hw (h.mono hext)

theorem makes_clone (hw : w.Typed) (h : w.HasType v t) : w.Makes (clone v w.store) t := by
  unfold clone
  split
  · exact makes_cloneAt _ hw h (.refl w) hw
  · exact .refl hw h

theorem makesAll_clone {vs : List Value} {ts : List (Option Ty)} (hw : w.Typed) (h : w.HaveTypes vs ts) :
    w.MakesAll (makeAll clone vs w.store) ts :=
  makesAll_makeAll hw (h.imp fun _ _ hx _ hext hw' => makes_clone hw' (hx.mono hext))

theorem makes_box (hU : U.Regular) {a b : Ty} (hw : w.Typed) (h : w.HasType v (some a))
    (hab : U.boxesTo a b = true) : w.Makes (box v w.store) (some b) := by
  have ha : U.isValue a = true := isValue_of_boxesTo hab
  obtain ⟨w₁, hstore, hext, h₁, hv⟩ := makes_clone hw h
  show w.Makes (wrap (clone v w.store).1 (clone v w.store).2) (some b)
  rw [← hstore]
  generalize (clone v w.store).1 = x at hv
  have hat : (w₁.store.addBox x).2.boxes[w₁.store.boxes.size]? = some x := getElem?_push_size
  obtain ⟨hty, -⟩ := hv.type_of_value ha
  obtain ⟨hext₂, h₂⟩ := h₁.add (d := .box w₁.store.boxes.size) (fun _ hx => (sameAt_add hx).2.2.1 x)
    fun hnew => ⟨x, a, hat, hty, ha, hv.mono hnew⟩
  have hn : (w₁.store.addBox x).2.nominal (.box w₁.store.boxes.size) = some a := by
    rw [nominal, hat]
    exact hty
  refine ⟨_, rfl, hext.trans hext₂, h₂, (hasType_reference hU (target_of_boxesTo hab)).2 (.inr ?_)⟩
  exact ⟨a, .box (.inr rfl) hn ha, .of_boxesTo hU.declared hab⟩

theorem makes_newCell (hU : U.Regular) {t : Ty} (hw : w.Typed) (h : w.HasType v (some t)) :
    ∃ w' : Heap U F, w'.store = (newCell U (some t) v w.store).2 ∧ w'.Extends w ∧ w'.Typed ∧
      w'.HasCell (newCell U (some t) v w.store).1 t := by
  have hcontent : w.Makes (if v = .nil && U.isValue t then zero U t w.store else (v, w.store))
      (some t) := by
    split
    · exact makes_zero hU t hw
    · exact .refl hw h
  obtain ⟨w₁, hstore, hext, h₁, hv⟩ := hcontent
  obtain ⟨w₂, hstore₂, hext₂, h₂, hx⟩ := makes_clone h₁ hv
  unfold newCell
  simp only [← hstore, ← hstore₂]
  generalize (clone _ w₁.store).1 = x at hx
  have hat : (w₂.store.addCell ⟨some t, x⟩).2.cells[w₂.store.cells.size]? = some ⟨some t, x⟩ :=
    getElem?_push_size
  obtain ⟨hext₃, h₃⟩ := h₂.add (d := .cell w₂.store.cells.size)
    (fun _ hx => (sameAt_add hx).2.2.2.2.1 ⟨some t, x⟩) fun hnew => ⟨_, t, hat, rfl, hx.mono hnew⟩
  have hn : (w₂.store.addCell ⟨some t, x⟩).2.nominal (.cell w₂.store.cells.size) = some t := by
    rw [nominal, hat]
    rfl
  exact ⟨_, rfl, (hext.trans hext₂).trans hext₃, h₃, .inr rfl, hn⟩

end Copying

/-! ## Reading -/

section Reading

variable {v : Value} {t d : Ty} {i : Nat} {f : Field} {vs : List Value} {ts : List (Option Ty)}

theorem Typed.load (hw : w.Typed) {loc : Loc} (h : w.HasCell loc t) : w.HasType (w.store.load loc) (some t) := by
  obtain ⟨c, u, hc, hty, hv⟩ := hw _ h.1
  have hu := h.2
  rw [Store.nominal, hc, bind_some, hty] at hu
  cases hu
  rw [Store.load, hc]
  exact hv

theorem Typed.payload (hw : w.Typed) (h : w.Refers v d) (hd : U.isValue d = true) :
    ∃ p, w.store.payload? v = some p ∧ p.type = some d ∧ w.HasType p (some d) := by
  cases h with
  | text s => cases hd
  | array => cases hd
  | object _ _ hf =>
    rw [isValue_of_class hf] at hd
    cases hd
  | delegate _ _ hs =>
    rw [isValue_of_delegate hs] at hd
    cases hd
  | box hk hn =>
    obtain ⟨p, u, hp, hty, -, hv⟩ := hw _ hk
    rw [nominal, hp, bind_some, hty] at hn
    cases hn
    exact ⟨p, hp, hty, hv⟩

theorem Typed.unboxed (hU : U.Regular) (hw : w.Typed) (h : w.HasType v (some t)) (hn : v.datum ≠ .null)
    (hd : w.store.dynamicType v = some d) (hv : U.isValue d = true) : w.HasType (w.store.unboxed v) (some d) := by
  cases ht : U.isValue t with
  | true =>
    have hraw : w.store.payload? v = none := by
      rcases scalar_or_aggregate ht with hs | hs
      · have hof := ((hasType_scalar_iff hs).1 h).2
        obtain ⟨ty, x⟩ := v
        unfold Datum.isOf at hof
        split at hof <;> first | (rename_i heq; rw [show x = _ from heq]; rfl) | cases hof
      · obtain ⟨loc, rfl, -⟩ := (hasType_aggregate hs).1 h
        rfl
    obtain ⟨-, -, hdyn⟩ := h.type_of_value ht
    obtain rfl : t = d := some.inj (hdyn.symm.trans hd)
    rw [unboxed, hraw]
    exact h
  | false =>
    obtain ⟨d', hr, -⟩ := ((hasType_reference hU ht).1 h).resolve_left hn
    obtain rfl : d' = d := some.inj (hr.dynamicType.symm.trans hd)
    obtain ⟨p, hp, -, hpd⟩ := hw.payload hr hv
    rw [unboxed, hp]
    exact hpd

theorem Typed.items (hU : U.Regular) (hw : w.Typed) {e : Ty} (h : w.HasType v (some (.array e)))
    (hn : v.datum ≠ .null) : ∃ loc a, v.datum = .array loc ∧ w.known (.array loc) ∧
      w.store.arrays[loc]? = some a ∧ a.elem = e ∧ ∀ x ∈ a.items, w.HasType x (some e) := by
  obtain ⟨d, hr, his⟩ := ((hasType_reference hU rfl).1 h).resolve_left hn
  obtain rfl := his.eq_array hU.declared
  cases hr with
  | object _ _ hf => cases hf
  | box _ _ hv => cases hv
  | delegate _ _ hs => cases hs
  | @array loc _ hk hnom =>
    obtain ⟨a, ha, hitems⟩ := hw _ hk
    rw [nominal, ha] at hnom
    cases hnom
    exact ⟨loc, a, rfl, hk, ha, rfl, hitems⟩

theorem Typed.delegate (hU : U.Regular) (hw : w.Typed) {sig : Signature} (hsig : U.signature? t = some sig)
    (h : w.HasType v (some t)) (hn : v.datum ≠ .null) :
    ∃ x, w.store.delegate? v = some x ∧ x.Serves F sig ∧ w.Runs x := by
  obtain ⟨d, hr, his⟩ := ((hasType_reference hU (isValue_of_delegate hsig)).1 h).resolve_left hn
  have hd := his.delegate_of_signature hU.declared hsig
  cases hr with
  | text s => cases hd
  | array => cases hd
  | object _ _ hf =>
    rw [signature?, hf] at hd
    cases hd
  | box _ _ hv =>
    rw [isValue_of_delegate hd] at hv
    cases hv
  | delegate hk hx hs hserves =>
    obtain ⟨x', hx', hruns⟩ := hw _ hk
    obtain rfl := some.inj (hx.symm.trans hx')
    obtain rfl := some.inj (hs.symm.trans hd)
    exact ⟨_, hx, hserves, hruns⟩

/-! ### Fields -/

/-- The value is a struct or an instance, with storage for the fields of `d`. -/
inductive Stores (w : Heap U F) : Value → Ty → Prop
  | aggregate {ty : Option Ty} {loc : Loc} {d : Ty} : w.known (.aggregate loc) →
    w.store.nominal (.aggregate loc) = some d → Stores w ⟨ty, .aggregate loc⟩ d
  | object {ty : Option Ty} {loc : Loc} {d : Ty} : w.known (.object loc) →
    w.store.nominal (.object loc) = some d → Stores w ⟨ty, .object loc⟩ d

/-- **What is seen at a type with fields** has storage for them. -/
theorem HasType.stores (hU : U.Regular) (h : w.HasType v (some t)) (hn : v.datum ≠ .null)
    (hf : (U.layout t)[i]? = some f) : ∃ d, w.Stores v d ∧ (U.layout d)[i]? = some f := by
  cases ht : U.isValue t with
  | true =>
    rcases scalar_or_aggregate ht with hs | hs
    · rw [hU.declared.layout_of_scalar hs] at hf
      cases hf
    · obtain ⟨loc, rfl, hk, hnom⟩ := (hasType_aggregate hs).1 h
      exact ⟨t, .aggregate hk hnom, hf⟩
  | false =>
    obtain ⟨d, hr, his⟩ := ((hasType_reference hU ht).1 h).resolve_left hn
    have hd := his.layout hU.declared hf
    cases hr with
    | text s => cases hd
    | array => cases hd
    | object hk hnom => exact ⟨d, .object hk hnom, hd⟩
    | delegate _ _ hs =>
      rw [hU.declared.layout_of_delegate hs] at hd
      cases hd
    | box _ _ hv =>
      have hne : d ≠ t := by
        rintro rfl
        rw [ht] at hv
        cases hv
      rw [his.layout_of_boxed hU.declared hv hne] at hf
      cases hf

theorem Stores.fields (hw : w.Typed) (h : w.Stores v d) : w.Fills d (w.store.fields v).toList := by
  cases h with
  | aggregate hk hn | object hk hn =>
    obtain ⟨r, u, hr, hty, -, hf⟩ := hw _ hk
    rw [nominal, hr, bind_some, hty] at hn
    cases hn
    simpa only [fields, fieldOwner, recordFields?, hr, map_some,
      getD_some] using hf

theorem HaveTypes.at (h : w.HaveTypes vs ts) {t : Option Ty} (ht : ts[i]? = some t) :
    ∃ v, vs[i]? = some v ∧ w.HasType v t := by
  induction h generalizing i with
  | nil => cases ht
  | cons hv _ ih =>
    cases i with
    | zero =>
      cases ht
      exact ⟨_, rfl, hv⟩
    | succ i => exact ih ht

theorem Stores.field (hw : w.Typed) (h : w.Stores v d) (hf : (U.layout d)[i]? = some f) :
    ∃ x, (w.store.fields v)[i]? = some x ∧ w.HasType x (some f.type) := by
  obtain ⟨x, hx, hty⟩ := (h.fields hw).at (i := i) (t := some f.type) (by rw [List.getElem?_map, hf]; rfl)
  exact ⟨x, by rwa [getElem?_toList] at hx, hty⟩

/-! ### Hashes -/

theorem HasType.proper {t : Option Ty} (h : w.HasType v t) : w.Proper v := by
  cases t with
  | none =>
    unfold Proper
    rw [show v.datum = .null from h]
    trivial
  | some t => exact h.1

theorem HaveTypes.proper (h : w.HaveTypes vs ts) : ∀ v ∈ vs, w.Proper v := by
  induction h with
  | nil => exact fun v hv => absurd hv List.not_mem_nil
  | cons hv _ ih =>
    intro v hmem
    rcases List.mem_cons.1 hmem with rfl | hmem
    · exact hv.proper
    · exact ih v hmem

theorem Typed.proper_unboxed (hw : w.Typed) (h : w.Proper v) : w.Proper (w.store.unboxed v) := by
  obtain ⟨ty, d⟩ := v
  cases d with
  | box loc =>
    obtain ⟨p, u, hp, -, -, hv⟩ := hw _ h.1
    have hunboxed : w.store.unboxed ⟨ty, .box loc⟩ = p := congrArg (Option.getD · _) hp
    rw [hunboxed]
    exact hv.1
  | _ => exact h

theorem Typed.isSome_hashAt (hw : w.Typed) (n : Nat) (x : UInt32) (h : w.Proper v) :
    (w.store.hashAt U n x v).isSome = true := by
  induction n generalizing x v with
  | zero => rfl
  | succ n ih =>
    obtain ⟨ty, d⟩ := v
    cases d with
    | aggregate loc =>
      obtain ⟨hk, t, -, hty, -⟩ := h
      obtain rfl : ty = some t := hty
      obtain ⟨r, u, hr, -, -, hfields⟩ := hw _ hk
      have hproper := hfields.proper
      have hfold : ∀ (vs : List Value) (x : UInt32), (∀ v ∈ vs, w.Proper v) →
          (vs.foldlM (fun h f => w.store.hashAt U n h f) x).isSome = true := by
        intro vs
        induction vs with
        | nil => exact fun _ _ => rfl
        | cons v vs ihvs =>
          intro x hvs
          obtain ⟨y, hy⟩ := isSome_iff_exists.1 (ih x (hvs v List.mem_cons_self))
          rw [List.foldlM_cons, hy]
          exact ihvs y fun v' hv' => hvs v' (List.mem_cons_of_mem _ hv')
      unfold hashAt
      simp only [hr]
      exact hfold _ _ hproper
    | _ => rfl

theorem Typed.isSome_hash (hw : w.Typed) (h : w.Proper v) : (w.store.hash U v).isSome = true := by
  unfold Store.hash
  split
  · exact hw.isSome_hashAt _ _ (hw.proper_unboxed h)
  · rfl

end Reading

/-! ## Writing -/

section Writing

variable {v x : Value} {t d : Ty} {i : Nat} {loc : Loc}

theorem HaveTypes.set {vs : List Value} {ts : List (Option Ty)} (h : w.HaveTypes vs ts) {t : Option Ty}
    (ht : ts[i]? = some t) (hx : w.HasType x t) : w.HaveTypes (vs.set i x) ts := by
  induction h generalizing i with
  | nil => cases ht
  | cons hv hvs ih =>
    cases i with
    | zero =>
      cases ht
      exact .cons hx hvs
    | succ i => exact .cons hv (ih ht)

theorem Typed.store (hw : w.Typed) (hc : w.HasCell loc t) (hx : w.HasType x (some t)) :
    (w.withStore (w.store.store loc x)).Extends w ∧ (w.withStore (w.store.store loc x)).Typed := by
  obtain ⟨c, u, hcell, hty, -⟩ := hw _ hc.1
  have hu := hc.2
  rw [Store.nominal, hcell, bind_some, hty] at hu
  cases hu
  have hat : (w.store.store loc x).cells[loc]? = some { c with value := x } := by
    rw [Store.store, getElem?_modify, if_pos rfl, hcell]
    rfl
  refine hw.write (d := .cell loc) nofun ?_ (fun y hy => ?_) fun hext => ⟨_, t, hat, hty, hx.mono hext⟩
  · rw [Store.nominal, Store.nominal, hat, hcell]
    rfl
  · cases y with
    | cell loc' =>
      have hne : loc ≠ loc' := fun h => hy (h ▸ rfl)
      rw [Store.SameAt, Store.store, getElem?_modify, if_neg hne]
    | _ => first | rfl | trivial

theorem Typed.setItem (hw : w.Typed) {a : Items} (hd : v.datum = .array loc) (hk : w.known (.array loc))
    (ha : w.store.arrays[loc]? = some a) (i : Nat) (hx : w.HasType x (some a.elem)) :
    (w.withStore (w.store.setItem v i x)).Extends w ∧ (w.withStore (w.store.setItem v i x)).Typed := by
  obtain ⟨a', ha', hitems⟩ := hw _ hk
  obtain rfl := some.inj (ha.symm.trans ha')
  have hset : w.store.setItem v i x = { w.store with
      arrays := w.store.arrays.modify loc fun a => { a with items := a.items.setIfInBounds i x } } := by
    rw [Store.setItem, hd]
  rw [hset]
  have hat : (w.store.arrays.modify loc fun a => { a with items := a.items.setIfInBounds i x })[loc]? =
      some { a with items := a.items.setIfInBounds i x } := by
    rw [getElem?_modify, if_pos rfl, ha]
    rfl
  refine hw.write (d := .array loc) nofun ?_ (fun y hy => ?_) fun hext => ⟨_, hat, fun y hy => ?_⟩
  · rw [Store.nominal, Store.nominal, hat, ha]
    rfl
  · cases y with
    | array loc' =>
      have hne : loc ≠ loc' := fun h => hy (h ▸ rfl)
      rw [Store.SameAt, getElem?_modify, if_neg hne]
    | _ => first | rfl | trivial
  · rcases mem_or_eq_of_mem_setIfInBounds hy with hy | rfl
    · exact (hitems y hy).mono hext
    · exact hx.mono hext

theorem Store.sameAt_setFieldOf {s : Store} {d y : Datum} (h : y ≠ d) : (s.setFieldOf d i x).SameAt s y := by
  unfold setFieldOf
  split
  all_goals cases y
  case h_1.aggregate | h_2.object => rw [Store.SameAt, getElem?_modify, if_neg fun heq => h (by rw [heq])]
  all_goals first | rfl | trivial

theorem Stores.setField (hw : w.Typed) (h : w.Stores v d) {f : Field} (hf : (U.layout d)[i]? = some f)
    (hx : w.HasType x (some f.type)) :
    (w.withStore (w.store.setField v i x)).Extends w ∧ (w.withStore (w.store.setField v i x)).Typed := by
  have htype : ((U.layout d).map fun f => some f.type)[i]? = some (some f.type) := by
    rw [List.getElem?_map, hf]
    rfl
  cases h with
  | @aggregate ty loc d hk hn =>
    obtain ⟨r, u, hr, hty, ha, hfields⟩ := hw _ hk
    rw [Store.nominal, hr, bind_some, hty] at hn
    cases hn
    have hat : (w.store.setFieldOf (.aggregate loc) i x).aggregates[loc]? =
        some { r with fields := r.fields.setIfInBounds i x } := by
      rw [Store.setFieldOf, getElem?_modify, if_pos rfl, hr]
      rfl
    refine hw.write (d := .aggregate loc) nofun ?_ (fun _ => Store.sameAt_setFieldOf) fun hext =>
      ⟨_, d, hat, hty, ha, ?_⟩
    · rw [Store.nominal, show w.store.setField _ i x = w.store.setFieldOf (.aggregate loc) i x from rfl, hat,
        Store.nominal, hr]
      rfl
    · rw [toList_setIfInBounds]
      exact (hfields.set htype hx).mono hext
  | @object ty loc d hk hn =>
    obtain ⟨r, u, hr, hty, ha, hfields⟩ := hw _ hk
    rw [Store.nominal, hr, bind_some, hty] at hn
    cases hn
    have hat : (w.store.setFieldOf (.object loc) i x).objects[loc]? =
        some { r with fields := r.fields.setIfInBounds i x } := by
      rw [Store.setFieldOf, getElem?_modify, if_pos rfl, hr]
      rfl
    refine hw.write (d := .object loc) nofun ?_ (fun _ => Store.sameAt_setFieldOf) fun hext =>
      ⟨_, d, hat, hty, ha, ?_⟩
    · rw [Store.nominal, show w.store.setField _ i x = w.store.setFieldOf (.object loc) i x from rfl, hat,
        Store.nominal, hr]
      rfl
    · rw [toList_setIfInBounds]
      exact (hfields.set htype hx).mono hext

end Writing

end Heap

/-! ## Executions -/

namespace Exec

section

variable {α : Type} {s : Store} {v : Value}

theorem clone_of_nests (h : s.nests v = true) : Exec.clone v s = .ok (Store.clone v s).1 (Store.clone v s).2 := by
  show (Exec.ending (s.nests v) >>= fun _ => Exec.step (Store.clone v)) s = _
  rw [h]
  rfl

theorem box_of_nests (h : s.nests v = true) : Exec.box v s = .ok (Store.box v s).1 (Store.box v s).2 := by
  show (Exec.ending (s.nests v) >>= fun _ => Exec.step (Store.box v)) s = _
  rw [h]
  rfl

theorem equal_bind (a b : Value) (f : Bool → Exec α) :
    (Exec.equal a b >>= f) s = if s.compares a b then f (s.equal a b) s else .error .endless s := by
  have heq : Exec.equal a b s = if s.compares a b then .ok (s.equal a b) s else .error .endless s := by
    show (Exec.ending (s.compares a b) >>= fun _ => get >>= fun s => pure (s.equal a b)) s = _
    cases s.compares a b <;> rfl
  split at heq
  · rw [EStateM.bind_of_ok heq, if_pos ‹_›]
  · rw [EStateM.bind_of_error heq, if_neg ‹_›]

theorem hash_bind {U : Universe} (h : s.nests (s.unboxed v) = true) (f : UInt32 → Exec α) :
    (Exec.hash U v >>= f) s = (Exec.getSome (s.hash U v) >>= f) s := by
  have heq : Exec.hash U v s = Exec.getSome (s.hash U v) s := by
    show (Exec.ending (s.nests (s.unboxed v)) >>= fun _ => get >>= fun s => Exec.getSome (s.hash U v)) s = _
    rw [h]
    rfl
  show EStateM.bind (Exec.hash U v) f s = EStateM.bind (Exec.getSome (s.hash U v)) f s
  unfold EStateM.bind
  rw [heq]

end

variable {U : Universe} {F : Delegate → Signature → Prop} {w : Heap U F} {E : Abort → Prop} {v : Value}
  {t : Option Ty}

abbrev OfType (t : Option Ty) (w : Heap U F) (v : Value) : Prop := w.HasType v t

theorem settles_makes {f : Store → Value × Store} (h : w.Makes (f w.store) t) :
    Settles E w (Exec.step f) (OfType t) := by
  obtain ⟨w', hs, hext, hw, hv⟩ := h
  exact .step hs hext hw hv

theorem settles_clone (hw : w.Typed) (h : w.HasType v t) :
    Settles E w (Exec.clone v) (OfType t) := .nesting_bind hw (settles_makes (Heap.makes_clone hw h))

theorem settles_cloneAny (hw : w.Typed) (v : Value) : Settles E w (Exec.clone v) fun _ _ => True := by
  obtain ⟨hext, hw'⟩ := hw.grow (Store.Grows.clone v w.store)
  refine .nesting_bind hw (.step ?_ hext hw' trivial)
  rfl

theorem settles_equal (hw : w.Typed) (a b : Value) : Settles E w (Exec.equal a b) fun w' _ => w' = w := by
  refine .get_bind (Settles.bind (.ending hw loops_of_compares) ?_)
  rintro _ _ - - ⟨rfl, -⟩
  exact .get_bind (.pure hw rfl)

theorem settles_cloneAll {vs : List Value} {ts : List (Option Ty)} (hw : w.Typed) (h : w.HaveTypes vs ts) :
    Settles E w (Exec.cloneAll vs) fun w' vs' => w'.HaveTypes vs' ts := by
  have hloops : vs.all w.store.nests = false → w.store.Loops := fun h => by
    obtain ⟨v, -, hv⟩ := List.all_eq_false.1 h
    exact loops_of_nests (by simpa using hv)
  refine .get_bind (Settles.bind (.ending hw hloops) ?_)
  rintro _ _ - - ⟨rfl, -⟩
  obtain ⟨w', hs, hext, hw', hvs⟩ := Heap.makesAll_clone hw h
  exact .step hs hext hw' hvs

theorem settles_modify {f : Store → Store}
    (h : (w.withStore (f w.store)).Extends w ∧ (w.withStore (f w.store)).Typed) :
    Settles E w (modify f : Exec PUnit) fun _ _ => True := .of_ok rfl rfl h.1 h.2 trivial

end Exec

end TreeMachine
