import Mathlib.Data.List.Forall2

/-!
# Outcomes of sequences of steps

A sequence of steps succeeds exactly when each of its steps does. These lemmas take such a sequence
apart, one step at a time, for steps that may fail (`Except`) and for steps that also change a state
(`EStateM`), so that proofs about them never unfold the monads.
-/

open List

namespace TreeMachine

/-- What is found under a key once an entry has taken the place of those under its own. -/
theorem lookup_replace {κ α : Type} [BEq κ] [LawfulBEq κ] [DecidableEq κ] (key k : κ) (a : α) (es : List (κ × α)) :
    ((key, a) :: es.filter (·.1 != key)).lookup k = if k = key then some a else es.lookup k := by
  rw [lookup_cons]
  by_cases hk : k = key
  · rw [if_pos hk, beq_iff_eq.2 hk]
  · rw [if_neg hk, beq_false_of_ne hk]
    dsimp only
    induction es with
    | nil => rfl
    | cons e es ih =>
      rw [filter_cons]
      split
      · rw [lookup_cons, lookup_cons, ih]
      · rename_i he
        have hkey : e.1 = key := by simpa using he
        rw [ih, lookup_cons, hkey, beq_false_of_ne hk]

universe u

variable {ε σ α β : Type u}

theorem Except.bind_eq_ok {x : Except ε α} {f : α → Except ε β} {b : β} :
    (x >>= f) = .ok b ↔ ∃ a, x = .ok a ∧ f a = .ok b := by
  cases x with
  | error e => exact ⟨(nomatch ·), fun ⟨_, h, _⟩ => nomatch h⟩
  | ok a => exact ⟨fun h => ⟨a, rfl, h⟩, fun ⟨_, h, h'⟩ => by cases h; exact h'⟩

theorem Except.exists_ok_of_map {x : Except ε α} {g : α → β} {b : β}
    (h : x.toOption.map g = some b) : ∃ a, x = .ok a ∧ g a = b := by
  cases x with
  | error e => cases h
  | ok a => exact ⟨a, rfl, Option.some.inj h⟩

/-- Steps over a list succeed exactly when each does, and give their results in order. -/
theorem Except.mapM_eq_ok {f : α → Except ε β} {xs : List α} {ys : List β} (h : xs.mapM f = .ok ys) :
    List.Forall₂ (fun x y => f x = .ok y) xs ys := by
  induction xs generalizing ys with
  | nil =>
    rw [mapM_nil] at h
    cases h
    exact .nil
  | cons x xs ih =>
    rw [mapM_cons] at h
    obtain ⟨y, hy, h⟩ := Except.bind_eq_ok.1 h
    obtain ⟨zs, hzs, h⟩ := Except.bind_eq_ok.1 h
    cases h
    exact .cons hy (ih hzs)

theorem exists_mem_of_forall₂ {R : α → β → Prop} {xs : List α} {ys : List β} (h : List.Forall₂ R xs ys) {y : β}
    (hy : y ∈ ys) : ∃ x ∈ xs, R x y := by
  induction h with
  | nil => cases hy
  | cons hxy _ ih =>
    rcases mem_cons.1 hy with rfl | hy
    · exact ⟨_, mem_cons_self, hxy⟩
    · obtain ⟨x, hx, hxy⟩ := ih hy
      exact ⟨x, mem_cons_of_mem _ hx, hxy⟩

/-- A step after another one succeeds exactly when both do, the second from where the first ends. -/
theorem EStateM.bind_eq_ok {x : EStateM ε σ α} {f : α → EStateM ε σ β} {b : β} {s s' : σ} :
    (x >>= f) s = .ok b s' ↔ ∃ a t, x s = .ok a t ∧ f a t = .ok b s' := by
  show EStateM.bind x f s = .ok b s' ↔ _
  unfold EStateM.bind
  cases x s with
  | ok a t => exact ⟨fun h => ⟨a, t, rfl, h⟩, fun ⟨_, _, h, h'⟩ => by cases h; exact h'⟩
  | error e t => exact ⟨(nomatch ·), fun ⟨_, _, h, _⟩ => nomatch h⟩

theorem EStateM.bind_of_ok {x : EStateM ε σ α} {f : α → EStateM ε σ β} {a : α} {s t : σ}
    (h : x s = .ok a t) : (x >>= f) s = f a t := by
  show EStateM.bind x f s = _
  rw [EStateM.bind, h]

theorem EStateM.bind_of_error {x : EStateM ε σ α} {f : α → EStateM ε σ β} {e : ε} {s t : σ}
    (h : x s = .error e t) : (x >>= f) s = .error e t := by
  show EStateM.bind x f s = _
  rw [EStateM.bind, h]

theorem EStateM.pure_eq_ok {a b : α} {s s' : σ} : (pure a : EStateM ε σ α) s = .ok b s' ↔ a = b ∧ s = s' :=
  ⟨fun h => by cases h; exact ⟨rfl, rfl⟩, fun ⟨h, h'⟩ => by rw [h, h']; rfl⟩

theorem EStateM.throw_ne_ok {e : ε} {a : α} {s s' : σ} : (throw e : EStateM ε σ α) s ≠ .ok a s' := fun h => by cases h

theorem EStateM.get_eq_ok {s s' t : σ} : (get : EStateM ε σ σ) s = .ok t s' ↔ s = t ∧ s = s' :=
  ⟨fun h => by cases h; exact ⟨rfl, rfl⟩, fun ⟨h, h'⟩ => by rw [← h, ← h']; rfl⟩

theorem EStateM.modifyGet_eq_ok {f : σ → α × σ} {a : α} {s s' : σ} :
    (modifyGet f : EStateM ε σ α) s = .ok a s' ↔ (f s).1 = a ∧ (f s).2 = s' :=
  ⟨fun h => by cases h; exact ⟨rfl, rfl⟩, fun ⟨h, h'⟩ => by rw [← h, ← h']; rfl⟩

theorem EStateM.map_eq_ok {f : α → β} {x : EStateM ε σ α} {b : β} {s s' : σ} :
    (f <$> x) s = .ok b s' ↔ ∃ a, x s = .ok a s' ∧ f a = b := by
  show EStateM.map f x s = .ok b s' ↔ _
  unfold EStateM.map
  cases x s with
  | ok a t =>
    exact ⟨fun h => by cases h; exact ⟨a, rfl, rfl⟩, fun ⟨_, h, h'⟩ => by cases h; cases h'; rfl⟩
  | error e t => exact ⟨(nomatch ·), fun ⟨_, h, _⟩ => nomatch h⟩

theorem EStateM.modify_eq_ok {ε σ : Type} {f : σ → σ} {u : Unit} {s s' : σ} :
    (modify f : EStateM ε σ Unit) s = .ok u s' ↔ f s = s' :=
  ⟨fun h => by cases h; rfl, fun h => by rw [← h]; rfl⟩

theorem EStateM.ite_eq_ok {c : Prop} [Decidable c] {x y : EStateM ε σ α} {s s' : σ}
    {a : α} : (if c then x else y) s = .ok a s' ↔ (c ∧ x s = .ok a s') ∨ (¬c ∧ y s = .ok a s') := by
  by_cases hc : c <;> simp [hc]

end TreeMachine
