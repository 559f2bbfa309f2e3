import Mathlib.Data.List.Induction
import TreeMachine.Host.Basic

/-!
# What the values of a store have in common

If all values in a store have a property (`Store.Holds`), so have those that are read from it, and writing or
adding such values keeps it that way. Making and copying values adds storage but no cells (`Store.Makes`).
-/

open Array

namespace TreeMachine

/-- The property says something about cells only: all other values have it. -/
def RestrictsCells (P : Value → Prop) : Prop := ∀ v : Value, (∀ loc, v.datum ≠ .cell loc) → P v

namespace Store

structure Holds (P : Value → Prop) (s : Store) : Prop where
  aggregates : ∀ r ∈ s.aggregates, ∀ v ∈ r.fields, P v
  objects : ∀ r ∈ s.objects, ∀ v ∈ r.fields, P v
  boxes : ∀ v ∈ s.boxes, P v
  arrays : ∀ a ∈ s.arrays, ∀ v ∈ a.items, P v
  cells : ∀ c ∈ s.cells, P c.value

variable {P : Value → Prop} {s : Store} {v : Value} {α : Type} {i : Nat}

/-! ## Reading -/

namespace Holds

theorem load (h : s.Holds P) (hP : RestrictsCells P) (loc : Loc) : P (s.load loc) := by
  unfold Store.load
  split
  · rename_i c hc
    exact h.cells c (mem_of_getElem? hc)
  · exact hP _ nofun

theorem payload (h : s.Holds P) {p : Value} (hp : s.payload? v = some p) : P p := by
  unfold Store.payload? at hp
  split at hp
  · exact h.boxes p (mem_of_getElem? hp)
  · cases hp

theorem unboxed (h : s.Holds P) (hv : P v) : P (s.unboxed v) := by
  unfold Store.unboxed
  cases hp : s.payload? v with
  | none => exact hv
  | some p => exact h.payload hp

theorem fields (h : s.Holds P) (owner : Value) : ∀ v ∈ s.fields owner, P v := by
  intro v hv
  unfold Store.fields at hv
  cases hr : s.recordFields? (s.fieldOwner (s.boxes.size + 1) owner.datum) with
  | none => simp [hr] at hv
  | some fields =>
    rw [hr, Option.getD_some] at hv
    unfold Store.recordFields? at hr
    split at hr
    · obtain ⟨r, hat, rfl⟩ := Option.map_eq_some_iff.1 hr
      exact h.aggregates r (mem_of_getElem? hat) v hv
    · obtain ⟨r, hat, rfl⟩ := Option.map_eq_some_iff.1 hr
      exact h.objects r (mem_of_getElem? hat) v hv
    · cases hr

theorem items (h : s.Holds P) {array : Value} {items : Array Value} (hi : s.items? array = some items) :
    ∀ v ∈ items, P v := by
  unfold Store.items? at hi
  split at hi
  · obtain ⟨a, ha, rfl⟩ := Option.map_eq_some_iff.1 hi
    exact h.arrays a (mem_of_getElem? ha)
  · cases hi

end Holds

theorem forall_getD {vs : Array Value} (h : ∀ v ∈ vs, P v) (hP : RestrictsCells P) (i : Nat) : P (vs.getD i {}) := by
  rw [getD_eq_getD_getElem?]
  cases hi : vs[i]? with
  | none => exact hP _ nofun
  | some v => exact h v (mem_of_getElem? hi)

/-! ## Writing -/

theorem mem_modify {xs : Array α} {f : α → α} {y : α} (h : y ∈ xs.modify i f) : y ∈ xs ∨ ∃ x ∈ xs, y = f x := by
  obtain ⟨j, hj, rfl⟩ := getElem_of_mem h
  rw [size_modify] at hj
  rw [getElem_modify]
  split
  · exact .inr ⟨_, getElem_mem hj, rfl⟩
  · exact .inl (getElem_mem hj)

theorem forall_record {rs : Array Record} {loc index : Nat} (h : ∀ r ∈ rs, ∀ x ∈ r.fields, P x) (hv : P v) :
    ∀ r ∈ rs.modify loc fun r => { r with fields := r.fields.setIfInBounds index v }, ∀ x ∈ r.fields, P x := by
  intro r hr x hx
  rcases mem_modify hr with hold | ⟨r, hold, rfl⟩
  · exact h r hold x hx
  · rcases mem_or_eq_of_mem_setIfInBounds hx with hx | rfl
    · exact h r hold x hx
    · exact hv

namespace Holds

theorem store (h : s.Holds P) (loc : Loc) (hv : P v) : (s.store loc v).Holds P :=
  { h with
    cells := fun c hc => by
      change c ∈ s.cells.modify loc fun c => { c with value := v } at hc
      rcases mem_modify hc with hc | ⟨c, -, rfl⟩
      · exact h.cells c hc
      · exact hv }

theorem setField (h : s.Holds P) (owner : Value) (index : Nat) (hv : P v) : (s.setField owner index v).Holds P := by
  unfold Store.setField Store.setFieldOf
  split
  · exact { h with aggregates := forall_record h.aggregates hv }
  · exact { h with objects := forall_record h.objects hv }
  · exact h

theorem setItem (h : s.Holds P) (array : Value) (index : Nat) (hv : P v) : (s.setItem array index v).Holds P := by
  unfold Store.setItem
  split
  · rename_i loc _
    refine { h with arrays := fun a ha x hx => ?_ }
    change a ∈ s.arrays.modify loc fun a => { a with items := a.items.setIfInBounds index v } at ha
    rcases mem_modify ha with hold | ⟨a, hold, rfl⟩
    · exact h.arrays a hold x hx
    · rcases mem_or_eq_of_mem_setIfInBounds hx with hx | rfl
      · exact h.arrays a hold x hx
      · exact hv
  · exact h

end Holds

theorem cells_setField (s : Store) (owner : Value) (index : Nat) (v : Value) :
    (s.setField owner index v).cells = s.cells := by
  unfold Store.setField Store.setFieldOf
  split <;> rfl

theorem cells_setItem (s : Store) (array : Value) (index : Nat) (v : Value) :
    (s.setItem array index v).cells = s.cells := by
  unfold Store.setItem
  split <;> rfl

/-! ## Making and copying values -/

theorem forall_mem_push {xs : Array α} {x : α} {Q : α → Prop} (h : ∀ y ∈ xs, Q y) (hx : Q x) :
    ∀ y ∈ xs.push x, Q y := by
  intro y hy
  rcases mem_push.1 hy with hy | rfl
  · exact h y hy
  · exact hx

variable {r : Value × Store} {t : Store} {fields : Array Value}

/-- A step makes a value from the store `s` and adds storage, but no cells. -/
structure Makes (P : Value → Prop) (s : Store) (r : Value × Store) : Prop where
  holds : r.2.Holds P
  cells : r.2.cells = s.cells
  value : P r.1

structure MakesAll (P : Value → Prop) (s : Store) (r : Array Value × Store) : Prop where
  holds : r.2.Holds P
  cells : r.2.cells = s.cells
  values : ∀ v ∈ r.1, P v

theorem Makes.refl (h : s.Holds P) (hv : P v) : Makes P s (v, s) := ⟨h, rfl, hv⟩

theorem MakesAll.push {vs : Array Value} (h : MakesAll P s (vs, t)) (hr : Makes P t r) :
    MakesAll P s (vs.push r.1, r.2) where
  holds := hr.holds
  cells := hr.cells.trans h.cells
  values := forall_mem_push h.values hr.value

theorem makeAll_concat (make : α → Store → Value × Store) (xs : List α) (x : α) (s : Store) :
    makeAll make (xs ++ [x]) s =
      ((makeAll make xs s).1.push (make x (makeAll make xs s).2).1, (make x (makeAll make xs s).2).2) := by
  rw [makeAll, List.foldl_append]
  rfl

theorem makesAll_makeAll {make : α → Store → Value × Store} {xs : List α} (h : s.Holds P)
    (hmake : ∀ x ∈ xs, ∀ s : Store, s.Holds P → Makes P s (make x s)) : MakesAll P s (makeAll make xs s) := by
  induction xs using List.reverseRecOn with
  | nil => exact ⟨h, rfl, fun v hv => absurd hv (not_mem_empty v)⟩
  | append_singleton xs x ih =>
    have hxs := ih fun y hy => hmake y (List.mem_append_left _ hy)
    rw [makeAll_concat]
    exact hxs.push (hmake x (List.mem_append_right _ List.mem_cons_self) _ hxs.holds)

section Fresh

variable (hP : RestrictsCells P)
include hP

theorem MakesAll.addAggregate (h : MakesAll P s (fields, t)) (ty ty' : Option Ty) :
    Makes P s (⟨ty, .aggregate (t.addAggregate ⟨ty', fields⟩).1⟩, (t.addAggregate ⟨ty', fields⟩).2) where
  holds := { h.holds with aggregates := forall_mem_push h.holds.aggregates h.values }
  cells := h.cells
  value := hP _ nofun

theorem MakesAll.addObject (h : MakesAll P s (fields, t)) (ty : Option Ty) :
    Makes P s (⟨ty, .object (t.addObject ⟨ty, fields⟩).1⟩, (t.addObject ⟨ty, fields⟩).2) where
  holds := { h.holds with objects := forall_mem_push h.holds.objects h.values }
  cells := h.cells
  value := hP _ nofun

theorem makes_zeroAt (U : Universe) (n : Nat) (ty : Ty) (h : s.Holds P) : Makes P s (zeroAt U n ty s) := by
  induction n generalizing ty s with
  | zero => exact .refl h (hP _ nofun)
  | succ n ih =>
    unfold zeroAt
    split
    · refine .refl h (hP _ ?_)
      unfold scalarZero
      split <;> exact nofun
    · exact (makesAll_makeAll h fun f _ t ht => ih f.type ht).addAggregate hP _ _
    · exact .refl h (hP _ nofun)
    · exact .refl h (hP _ nofun)

theorem makes_zero (U : Universe) (ty : Ty) (h : s.Holds P) : Makes P s (zero U ty s) := makes_zeroAt hP U _ ty h

theorem makes_newAggregate (U : Universe) (ty : Ty) (h : s.Holds P) : Makes P s (newAggregate U ty s) :=
  (makesAll_makeAll h fun (f : Field) _ _ ht => makes_zero hP U f.type ht).addAggregate hP _ _

theorem makes_newObject (U : Universe) (ty : Option Ty) (h : s.Holds P) : Makes P s (newObject U ty s) :=
  (makesAll_makeAll h fun (f : Field) _ _ ht => makes_zero hP U f.type ht).addObject hP _

theorem makes_newArrayOf (elem : Ty) {items : Array Value} (h : s.Holds P) (hi : ∀ v ∈ items, P v) :
    Makes P s (newArrayOf elem items s) where
  holds := { h with arrays := forall_mem_push h.arrays hi }
  cells := rfl
  value := hP _ nofun

theorem makes_newArray (U : Universe) (elem : Ty) (n : Nat) (h : s.Holds P) : Makes P s (newArray U elem n s) := by
  have hall : MakesAll P s (makeAll (fun _ s => zero U elem s) (List.replicate n ()) s) :=
    makesAll_makeAll h fun _ _ _ ht => makes_zero hP U elem ht
  have hnew := makes_newArrayOf hP elem hall.holds hall.values
  exact ⟨hnew.holds, hnew.cells.trans hall.cells, hnew.value⟩

theorem makes_cloneAt {source : Store} (n : Nat) (h : s.Holds P) (hv : P v)
    (hsource : ∀ r ∈ source.aggregates, ∀ f ∈ r.fields, P f) : Makes P s (cloneAt source n v s) := by
  induction n generalizing v s with
  | zero => exact .refl h hv
  | succ n ih =>
    unfold cloneAt
    split
    · split
      · rename_i r hr
        refine MakesAll.addAggregate hP (makesAll_makeAll h fun f hf t ht => ih ht ?_) _ _
        exact hsource r (mem_of_getElem? hr) f (mem_toList_iff.1 hf)
      · exact .refl h hv
    · exact .refl h hv

theorem makes_clone (h : s.Holds P) (hv : P v) : Makes P s (clone v s) := by
  unfold clone
  split
  · exact makes_cloneAt hP _ h hv h.aggregates
  · exact .refl h hv

theorem makesAll_cloneAll {vs : List Value} (h : s.Holds P) (hv : ∀ v ∈ vs, P v) : MakesAll P s (makeAll clone vs s) :=
  makesAll_makeAll h fun v hmem _ ht => makes_clone hP ht (hv v hmem)

theorem makes_wrap (h : s.Holds P) (hv : P v) : Makes P s (wrap v s) where
  holds := { h with boxes := forall_mem_push h.boxes hv }
  cells := rfl
  value := hP _ nofun

theorem makes_box (h : s.Holds P) (hv : P v) : Makes P s (box v s) := by
  have hclone := makes_clone hP h hv
  have hwrap := makes_wrap hP hclone.holds hclone.value
  exact ⟨hwrap.holds, hwrap.cells.trans hclone.cells, hwrap.value⟩

theorem newCell_eq (U : Universe) (ty : Option Ty) (h : s.Holds P) (hv : P v) :
    ∃ (t : Store) (u : Value), Makes P s (u, t) ∧ newCell U ty v s = (s.cells.size, (t.addCell ⟨ty, u⟩).2) := by
  have hstart : ∃ r : Value × Store, Makes P s r ∧
      newCell U ty v s = (clone r.1 r.2).2.addCell ⟨ty, (clone r.1 r.2).1⟩ := by
    cases ty with
    | none => exact ⟨(v, s), .refl h hv, rfl⟩
    | some u =>
      -- the null constant of a value type is replaced by a zero first
      by_cases hzero : (v = .nil && U.isValue u) = true
      · exact ⟨_, makes_zero hP U u h, by simp only [newCell, if_pos hzero]⟩
      · exact ⟨(v, s), .refl h hv, by simp only [newCell, if_neg hzero]⟩
  obtain ⟨r, hr, heq⟩ := hstart
  have hclone := makes_clone hP hr.holds hr.value
  refine ⟨_, _, ⟨hclone.holds, hclone.cells.trans hr.cells, hclone.value⟩, heq.trans (Prod.ext ?_ rfl)⟩
  exact congrArg Array.size (hclone.cells.trans hr.cells)

theorem holds_newCell (U : Universe) (ty : Option Ty) (h : s.Holds P) (hv : P v) :
    (newCell U ty v s).2.Holds P ∧ s.cells.size < (newCell U ty v s).2.cells.size := by
  obtain ⟨t, u, hmakes, heq⟩ := newCell_eq hP U ty h hv
  rw [heq]
  refine ⟨{ hmakes.holds with cells := forall_mem_push hmakes.holds.cells hmakes.value }, ?_⟩
  show _ < (t.cells.push _).size
  rw [size_push, hmakes.cells]
  exact Nat.lt_succ_self _

end Fresh

end Store

end TreeMachine
