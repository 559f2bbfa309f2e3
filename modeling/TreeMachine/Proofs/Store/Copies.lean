import TreeMachine.Proofs.Store.HeapOperations

/-!
# Copies of values

`Store.Copied s t v w` says that `w` is to the store `t` what `v` is to the store `s`: the same value, up to the
storage of its structs. A copy is such a value (`Store.copied_clone`), wherever its storage lies.
-/

namespace TreeMachine.Store

/-- The value `w` of the store `t` has the content that `v` has in the store `s`. Values are the same up to the
locations of structs; a struct without storage has no content. -/
inductive Copied (s t : Store) : Value → Value → Prop
  | leaf {v : Value} : (∀ loc, v.datum ≠ .aggregate loc) → Copied s t v v
  | missing {type : Option Ty} {loc : Loc} {d : Datum} : s.aggregates[loc]? = none →
    Copied s t ⟨type, .aggregate loc⟩ ⟨type, d⟩
  | struct {type : Option Ty} {loc loc' : Loc} {r r' : Record} :
    s.aggregates[loc]? = some r → t.aggregates[loc']? = some r' → r'.type = r.type →
    r'.fields.size = r.fields.size →
    (∀ (i : Nat) (x y : Value), r.fields[i]? = some x → r'.fields[i]? = some y → Copied s t x y) →
    Copied s t ⟨type, .aggregate loc⟩ ⟨type, .aggregate loc'⟩

variable {s s' t t' : Store} {v w : Value}

theorem Grows.aggregates {loc : Loc} {r : Record} (h : s.Grows t) (hr : s.aggregates[loc]? = some r) :
    t.aggregates[loc]? = some r := by
  obtain ⟨rs, rfl⟩ := h
  show (s.aggregates ++ rs)[loc]? = some r
  rw [Array.getElem?_append_left (Array.getElem?_eq_some_iff.1 hr).1, hr]

theorem Copied.grows (h : Copied s t v w) (ht : t.Grows t') : Copied s t' v w := by
  induction h with
  | leaf hv => exact .leaf hv
  | missing hs => exact .missing hs
  | struct hr hr' htype hsize _ ih => exact .struct hr (ht.aggregates hr') htype hsize ih

theorem Copied.congr (h : Copied s t v w) (hs : s'.aggregates = s.aggregates)
    (ht : t'.aggregates = t.aggregates) : Copied s' t' v w := by
  induction h with
  | leaf hv => exact .leaf hv
  | missing hm => exact .missing (hs ▸ hm)
  | struct hr hr' htype hsize _ ih => exact .struct (hs ▸ hr) (ht ▸ hr') htype hsize ih

theorem forall₂_makeAll {α : Type} {make : α → Store → Value × Store} {R : Store → α → Value → Prop} {xs : List α}
    (hgrows : ∀ x (s : Store), s.Grows (make x s).2) (hmono : ∀ {t t' x v}, R t x v → t.Grows t' → R t' x v)
    (hmake : ∀ x ∈ xs, ∀ s', s.Grows s' → R (make x s').2 x (make x s').1) :
    List.Forall₂ (R (makeAll make xs s).2) xs (makeAll make xs s).1.toList := by
  induction xs using List.reverseRecOn with
  | nil => exact .nil
  | append_singleton xs x ih =>
    have hxs := ih fun y hy => hmake y (List.mem_append_left _ hy)
    have hx := hmake x (List.mem_append_right _ List.mem_cons_self) _ (.makeAll hgrows xs s)
    rw [makeAll_concat, Array.toList_push]
    exact List.rel_append (hxs.imp fun _ _ h => hmono h (hgrows x _)) (.cons hx .nil)

theorem copied_cloneAt {n : Nat} (hnests : s.nestsAt n v = true) :
    Copied s (cloneAt s n v s').2 v (cloneAt s n v s').1 := by
  induction n generalizing v s' with
  | zero => cases hnests
  | succ n ih =>
    obtain ⟨type, d⟩ := v
    cases d with
    | aggregate loc =>
      cases hr : s.aggregates[loc]? with
      | none =>
        unfold cloneAt
        simp only [hr]
        exact .missing hr
      | some r =>
        have hfields : ∀ f ∈ r.fields.toList, s.nestsAt n f = true := by
          rw [nestsAt_struct rfl hr] at hnests
          exact List.all_eq_true.1 hnests
        have hcopies := forall₂_makeAll (s := s') (R := fun t x v => Copied s t x v)
          (fun f t => Grows.cloneAt s n f t) Copied.grows
          (fun f hf s'' _ => ih (hfields f hf))
        unfold cloneAt
        simp only [hr]
        obtain ⟨hlength, hget⟩ := List.forall₂_iff_get.1 hcopies
        refine .struct hr (Array.getElem?_push_size) rfl (by simpa using hlength.symm) ?_
        intro i x y hx hy
        obtain ⟨hi, rfl⟩ := Array.getElem?_eq_some_iff.1 hx
        obtain ⟨hi', rfl⟩ := Array.getElem?_eq_some_iff.1 hy
        exact Copied.grows (hget i hi hi') ⟨#[_], rfl⟩
    | _ => exact .leaf (fun _ h => by cases h)

theorem copied_clone (hnests : s.nests v = true) : Copied s (clone v s).2 v (clone v s).1 := by
  unfold clone
  rw [if_pos hnests]
  exact copied_cloneAt hnests

end TreeMachine.Store
