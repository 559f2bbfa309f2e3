import Mathlib.Data.Finset.Card
import Mathlib.Data.List.Forall2
import Mathlib.Logic.Relation
import TreeMachine.Store

/-!
# How deep structs nest

The operations that go down into the fields of structs are given a bound on how deep they go, the number of structs in
the store. The bound is never reached where no struct lies inside itself: the structs on a way down are different ones.

* **`Loc.rank`** counts the locations that a location leads down to, for any relation that leads down.
* **`Store.Numbered.descends_iff`** says for any way down that the number of places bounds it.
* **`Store.Inner`** relates a struct to the structs in its fields.
* **`Store.nests_iff`**: structs that nest somehow nest within the bound.
-/

open List

namespace TreeMachine

/-! ## Ranks -/

namespace Loc

variable {R : Loc → Loc → Prop} {N : Nat} {inner loc : Loc}

/-- The locations up to `N` that a location leads down to, itself included. -/
noncomputable def below (R : Loc → Loc → Prop) (N : Nat) (loc : Loc) : Finset Loc :=
  open Classical in (Finset.range N).filter fun inner => Relation.ReflTransGen R inner loc

noncomputable def rank (R : Loc → Loc → Prop) (N : Nat) (loc : Loc) : Nat := (below R N loc).card

theorem mem_below : inner ∈ below R N loc ↔ inner < N ∧ Relation.ReflTransGen R inner loc := by
  simp [below]

theorem rank_le (R : Loc → Loc → Prop) (N : Nat) (loc : Loc) : rank R N loc ≤ N := by
  have hsub : below R N loc ⊆ Finset.range N := fun x hx => Finset.mem_range.2 (mem_below.1 hx).1
  simpa [rank] using Finset.card_le_card hsub

theorem rank_pos (h : loc < N) : 0 < rank R N loc := Finset.card_pos.2 ⟨loc, mem_below.2 ⟨h, .refl⟩⟩

theorem not_below_itself (hacc : Acc R loc) : ¬Relation.TransGen R loc loc := by
  have htrans := hacc.transGen
  clear hacc
  intro h
  induction htrans with
  | intro loc _ ih => exact ih loc h h

/-- On a way down no location comes twice, so there are fewer of them below an inner one. -/
theorem rank_lt (hacc : Acc R loc) (hloc : loc < N) (h : R inner loc) : rank R N inner < rank R N loc := by
  refine Finset.card_lt_card (Finset.ssubset_iff_of_subset ?_ |>.2 ⟨loc, mem_below.2 ⟨hloc, .refl⟩, ?_⟩)
  · intro x hx
    rw [mem_below] at hx ⊢
    exact ⟨hx.1, hx.2.tail h⟩
  · -- otherwise the location would lead down to itself
    intro hx
    exact not_below_itself hacc (Relation.TransGen.tail' (mem_below.1 hx).2 h)

end Loc

namespace Store

/-! ## Ways down -/

section

variable {α : Type} {next : α → List α} {code : α → Loc} {a : α} {n m N : Nat}

theorem descends_of_nil (h : next a = []) (n : Nat) : descends next (n + 1) a = true := by
  rw [descends, h]
  rfl

theorem descends_mono (h : descends next n a = true) (hnm : n ≤ m) : descends next m a = true := by
  induction n generalizing m a with
  | zero => cases h
  | succ n ih =>
    obtain ⟨m, rfl⟩ : ∃ k, m = k + 1 := ⟨m - 1, by omega⟩
    rw [descends, all_eq_true] at h ⊢
    exact fun b hb => ih (h b hb) (by omega)

theorem exists_descends (h : ∀ b ∈ next a, ∃ n, descends next n b = true) : ∃ n, descends next n a = true := by
  suffices hall : ∀ bs : List α, (∀ b ∈ bs, ∃ n, descends next n b = true) → ∃ n, bs.all (descends next n) = true by
    obtain ⟨n, hn⟩ := hall _ h
    exact ⟨n + 1, hn⟩
  intro bs hbs
  induction bs with
  | nil => exact ⟨0, rfl⟩
  | cons b bs ih =>
    obtain ⟨n, hn⟩ := hbs b mem_cons_self
    obtain ⟨m, hm⟩ := ih fun c hc => hbs c (mem_cons_of_mem _ hc)
    refine ⟨max n m, all_eq_true.2 (forall_mem_cons.2 ⟨descends_mono hn (by omega), fun c hc => ?_⟩)⟩
    exact descends_mono (all_eq_true.1 hm c hc) (by omega)

/-- Ways down end where the places they go through have locations that are each below the last. -/
theorem exists_descends_of_acc {R : Loc → Loc → Prop} (place : α → Option Loc) (hacc : ∀ x, Acc R x)
    (hnext : ∀ {a b}, b ∈ next a → ∃ x, place a = some x ∧ ∀ y, place b = some y → R y x) (a : α) :
    ∃ n, descends next n a = true := by
  cases hplace : place a with
  | none =>
    refine exists_descends fun b hb => ?_
    obtain ⟨x, hx, -⟩ := hnext hb
    cases hplace.symm.trans hx
  | some x =>
    induction hacc x generalizing a with
    | intro x _ ih =>
      refine exists_descends fun b hb => ?_
      obtain ⟨x', hx, hbelow⟩ := hnext hb
      cases hplace.symm.trans hx
      cases hb' : place b with
      | some y => exact ih y (hbelow y hb') b hb'
      | none =>
        refine exists_descends fun c hc => ?_
        obtain ⟨z, hz, -⟩ := hnext hc
        cases hb'.symm.trans hz

theorem descends_of_forall₂ {β : Type} {next' : β → List β} {R : α → β → Prop}
    (hnext : ∀ {a b}, R a b → List.Forall₂ R (next a) (next' b)) (n : Nat) {b : β} (h : R a b) :
    descends next' n b = descends next n a := by
  induction n generalizing a b with
  | zero => rfl
  | succ n ih =>
    rw [descends, descends]
    have hall := hnext h
    generalize next a = as, next' b = bs at hall
    induction hall with
    | nil => rfl
    | cons h _ ih' => rw [all_cons, all_cons, ih h, ih']

/-- The places that lead on are numbered, and the number of a place tells where it leads. -/
structure Numbered (next : α → List α) (code : α → Loc) (N : Nat) : Prop where
  lt : ∀ {a}, next a ≠ [] → code a < N
  same : ∀ {a b}, next a ≠ [] → next b ≠ [] → code a = code b → next a = next b

/-- The number of a place that leads on, and that of the one that leads there. -/
def LeadsDown (next : α → List α) (code : α → Loc) (inner outer : Loc) : Prop :=
  ∃ a b, b ∈ next a ∧ next b ≠ [] ∧ code b = inner ∧ code a = outer

namespace Numbered

theorem acc (hN : Numbered next code N) (h : descends next n a = true) (ha : next a ≠ []) :
    Acc (LeadsDown next code) (code a) := by
  induction n generalizing a with
  | zero => cases h
  | succ n ih =>
    refine ⟨_, ?_⟩
    rintro _ ⟨a', b, hb, hnext, rfl, hcode⟩
    rw [hN.same (ne_nil_of_mem hb) ha hcode] at hb
    exact ih (all_eq_true.1 h b hb) hnext

theorem descends_rank (hN : Numbered next code N) (hacc : Acc (LeadsDown next code) (code a)) (ha : next a ≠ []) :
    descends next (Loc.rank (LeadsDown next code) N (code a) + 1) a = true := by
  generalize hc : code a = c at hacc
  induction hacc generalizing a with
  | intro c hacc ih =>
    subst hc
    refine all_eq_true.2 fun b hb => ?_
    by_cases hnext : next b = []
    · exact descends_mono (descends_of_nil hnext 0) (Loc.rank_pos (hN.lt ha))
    · have hleads : LeadsDown next code (code b) (code a) := ⟨a, b, hb, hnext, rfl, rfl⟩
      exact descends_mono (ih _ hleads hnext rfl) (Loc.rank_lt ⟨_, hacc⟩ (hN.lt ha) hleads)

/-- **The number of places is bound enough** for ways down that end at all. -/
theorem descends_iff (hN : Numbered next code N) : descends next (N + 1) a = true ↔ ∃ n, descends next n a = true := by
  refine ⟨fun h => ⟨_, h⟩, fun ⟨n, h⟩ => ?_⟩
  by_cases ha : next a = []
  · exact descends_of_nil ha N
  · exact descends_mono (hN.descends_rank (hN.acc h ha) ha) (Nat.succ_le_succ (Loc.rank_le _ _ _))

end Numbered

end

variable {s : Store} {v : Value} {loc : Loc} {n : Nat}

/-! ## Structs in structs -/

def Inner (s : Store) (inner outer : Loc) : Prop :=
  ∃ r f, s.aggregates[outer]? = some r ∧ f ∈ r.fields ∧ f.datum = .aggregate inner

theorem inlined_of_ne (h : ∀ loc, v.datum ≠ .aggregate loc) : s.inlined v = [] := by
  unfold inlined
  split
  · exact absurd ‹_› (h _)
  · rfl

theorem inlined_struct {r : Record} (h : v.datum = .aggregate loc) (hr : s.aggregates[loc]? = some r) :
    s.inlined v = r.fields.toList := by
  simp only [inlined, h, hr, Option.map_some, Option.getD_some]

theorem nestsAt_struct {r : Record} (h : v.datum = .aggregate loc) (hr : s.aggregates[loc]? = some r) (n : Nat) :
    s.nestsAt (n + 1) v = r.fields.toList.all (s.nestsAt n) := by
  rw [nestsAt, descends, inlined_struct h hr]

theorem nestsAt_of_ne (h : ∀ loc, v.datum ≠ .aggregate loc) (n : Nat) : s.nestsAt (n + 1) v = true :=
  descends_of_nil (inlined_of_ne h) n

theorem of_mem_inlined {f : Value} (h : f ∈ s.inlined v) :
    ∃ loc r, v.datum = .aggregate loc ∧ s.aggregates[loc]? = some r ∧ f ∈ r.fields := by
  unfold inlined at h
  split at h
  · rename_i loc hd
    cases hr : s.aggregates[loc]? with
    | none =>
      rw [hr] at h
      cases h
    | some r =>
      rw [hr] at h
      exact ⟨loc, r, hd, hr, Array.mem_toList_iff.1 h⟩
  · cases h

def structCode (v : Value) : Loc :=
  match v.datum with
  | .aggregate loc => loc
  | _ => 0

/-- **The number of structs is bound enough**: without a cycle, the structs of a value are different ones. -/
theorem nests_iff : s.nests v = true ↔ ∃ n, s.nestsAt n v = true := by
  have hstruct : ∀ {v : Value}, s.inlined v ≠ [] → ∃ loc, v.datum = .aggregate loc ∧ loc < s.aggregates.size := by
    intro v h
    obtain ⟨f, hf⟩ := exists_mem_of_ne_nil _ h
    obtain ⟨loc, r, hd, hr, -⟩ := of_mem_inlined hf
    exact ⟨loc, hd, (Array.getElem?_eq_some_iff.1 hr).1⟩
  suffices hN : Numbered s.inlined structCode s.aggregates.size from hN.descends_iff
  refine ⟨fun h => ?_, fun {v w} h h' hcode => ?_⟩
  · obtain ⟨loc, hd, hlt⟩ := hstruct h
    simpa only [structCode, hd] using hlt
  · obtain ⟨loc, hd, -⟩ := hstruct h
    obtain ⟨loc', hd', -⟩ := hstruct h'
    simp only [structCode, hd, hd'] at hcode
    simp only [inlined, hd, hd', hcode]

end Store

end TreeMachine
