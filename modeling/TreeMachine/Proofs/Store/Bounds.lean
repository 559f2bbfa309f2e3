import TreeMachine.Proofs.Store.Nesting
import TreeMachine.Value.Equality

/-!
# Bounds that are never reached

Going down into a value is bounded by the size of the store, and so seems to depend on it. It does not: a way down that
ends at all ends before the bound, because no location comes twice on it.

* **`Store.equal_iff`**: values that are equal are found equal within the bound.
* **`Store.compares_iff`**: comparing values that ends somehow ends within it.

Where a copy or a comparison does not end, a struct lies inside itself (`Store.Loops`).
-/

namespace TreeMachine.Store

variable {s : Store} {v a b : Value} {n m : Nat} {loc x : Loc} {U : Universe} {K : Value → Prop}

/-! ## Equality -/

theorem unboxed_of_ne (h : ∀ loc, v.datum ≠ .box loc) : s.unboxed v = v := by
  unfold unboxed payload?
  split
  · rename_i loc hd
    exact absurd hd (h loc)
  · rfl

/-- The struct at `inner` is in a field of the one at `outer`, as it is or in a box. -/
def Part (s : Store) (inner outer : Loc) : Prop :=
  ∃ r f, s.aggregates[outer]? = some r ∧ f ∈ r.fields ∧ (s.unboxed f).datum = .aggregate inner

/-- A set of values that is closed under going down, in which structs of one type have the same number of fields. -/
structure Closed (s : Store) (K : Value → Prop) : Prop where
  unboxed : ∀ {v}, K v → K (s.unboxed v)
  fields : ∀ {v loc r}, K v → v.datum = .aggregate loc → s.aggregates[loc]? = some r → ∀ f ∈ r.fields, K f
  size : ∀ {v w x y p q}, K v → K w → v.datum = .aggregate x → w.datum = .aggregate y → s.aggregates[x]? = some p →
    s.aggregates[y]? = some q → p.type = q.type → p.fields.size = q.fields.size

theorem equalAt_aggregate (ha : (s.unboxed a).datum = .aggregate x) :
    s.equalAt (n + 1) a b = true ↔ ∃ y p q, (s.unboxed b).datum = .aggregate y ∧ s.aggregates[x]? = some p ∧
      s.aggregates[y]? = some q ∧ p.type = q.type ∧
      ∀ fg ∈ p.fields.toList.zip q.fields.toList, s.equalAt n fg.1 fg.2 = true := by
  simp only [equalAt, ha]
  cases hb : (s.unboxed b).datum with
  | aggregate y =>
    cases hp : s.aggregates[x]? with
    | none => simp [hp]
    | some p =>
      cases hq : s.aggregates[y]? with
      | none => simp [hp, hq]
      | some q => simp [hp, hq]
  | _ => simp

theorem equalAt_of_ne (h : ∀ x, (s.unboxed a).datum ≠ .aggregate x) (hn : 0 < n) (hm : 0 < m) :
    s.equalAt n a b = s.equalAt m a b := by
  obtain ⟨n, rfl⟩ : ∃ k, n = k + 1 := ⟨n - 1, by omega⟩
  obtain ⟨m, rfl⟩ : ∃ k, m = k + 1 := ⟨m - 1, by omega⟩
  simp only [equalAt]
  cases ha : (s.unboxed a).datum with
  | aggregate x => exact absurd ha (h x)
  | _ => cases (s.unboxed b).datum <;> rfl

theorem exists_mem_zip {xs ys : List Value} {x : Value} (h : xs.length = ys.length) (hx : x ∈ xs) :
    ∃ y, (x, y) ∈ xs.zip ys := by
  obtain ⟨i, hi, rfl⟩ := List.getElem_of_mem hx
  have hzip : i < (xs.zip ys).length := by simp only [List.length_zip]; omega
  exact ⟨ys[i], by rw [← List.getElem_zip (h := hzip)]; exact List.getElem_mem hzip⟩

/-- A struct that is found equal to something does not lie inside itself. -/
theorem Closed.acc (hK : s.Closed K) (ha : K a) (hb : K b) (h : s.equalAt n a b = true)
    (hx : (s.unboxed a).datum = .aggregate x) : Acc s.Part x := by
  induction n generalizing a b x with
  | zero => cases h
  | succ n ih =>
    obtain ⟨y, p, q, hy, hp, hq, htype, hfields⟩ := (equalAt_aggregate hx).1 h
    refine ⟨_, fun inner hin => ?_⟩
    obtain ⟨r, f, hr, hf, hinner⟩ := hin
    obtain rfl : p = r := Option.some.inj (hp.symm.trans hr)
    have hlength : p.fields.toList.length = q.fields.toList.length := by
      rw [Array.length_toList, Array.length_toList]
      exact hK.size (hK.unboxed ha) (hK.unboxed hb) hx hy hp hq htype
    obtain ⟨g, hg⟩ := exists_mem_zip hlength (Array.mem_toList_iff.2 hf)
    have hmem := Array.mem_toList_iff.1 (List.of_mem_zip hg).2
    exact ih (hK.fields (hK.unboxed ha) hx hp f hf) (hK.fields (hK.unboxed hb) hy hq g hmem) (hfields _ hg) hinner

/-- The number of structs from a value on. -/
noncomputable def partRank (s : Store) (v : Value) : Nat :=
  match (s.unboxed v).datum with
  | .aggregate x => Loc.rank s.Part s.aggregates.size x
  | _ => 0

theorem partRank_of_ne (h : ∀ x, (s.unboxed v).datum ≠ .aggregate x) : s.partRank v = 0 := by
  unfold partRank
  split
  · rename_i x hx
    exact absurd hx (h x)
  · rfl

theorem partRank_of_eq (h : (s.unboxed v).datum = .aggregate x) :
    s.partRank v = Loc.rank s.Part s.aggregates.size x := by
  unfold partRank
  rw [h]

/-- Values that are found equal at all are found equal as soon as their structs are reached. -/
theorem Closed.equalAt_of_lt (hK : s.Closed K) (ha : K a) (hb : K b) (h : s.equalAt n a b = true)
    (hm : s.partRank a < m) : s.equalAt m a b = true := by
  induction n generalizing a b m with
  | zero => cases h
  | succ n ih =>
    by_cases hstruct : ∃ x, (s.unboxed a).datum = .aggregate x
    · obtain ⟨x, hx⟩ := hstruct
      obtain ⟨m, rfl⟩ : ∃ k, m = k + 1 := ⟨m - 1, by omega⟩
      have hacc := hK.acc ha hb h hx
      obtain ⟨y, p, q, hy, hp, hq, htype, hfields⟩ := (equalAt_aggregate hx).1 h
      refine (equalAt_aggregate hx).2 ⟨y, p, q, hy, hp, hq, htype, fun fg hfg => ?_⟩
      have hlt := (Array.getElem?_eq_some_iff.1 hp).1
      have hmem := List.of_mem_zip (a := fg.1) (b := fg.2) hfg
      have hf := Array.mem_toList_iff.1 hmem.1
      rw [partRank_of_eq hx] at hm
      refine ih (hK.fields (hK.unboxed ha) hx hp _ hf)
        (hK.fields (hK.unboxed hb) hy hq _ (Array.mem_toList_iff.1 hmem.2)) (hfields fg hfg) ?_
      by_cases hinner : ∃ z, (s.unboxed fg.1).datum = .aggregate z
      · obtain ⟨z, hz⟩ := hinner
        have := Loc.rank_lt hacc hlt ⟨p, fg.1, hp, hf, hz⟩
        rw [partRank_of_eq hz]
        omega
      · have := Loc.rank_pos (R := s.Part) hlt
        rw [partRank_of_ne fun z hz => hinner ⟨z, hz⟩]
        omega
    · rw [equalAt_of_ne (fun x hx => hstruct ⟨x, hx⟩) (show 0 < m by omega) (Nat.succ_pos n)]
      exact h

theorem Closed.equal_iff (hK : s.Closed K) (ha : K a) (hb : K b) :
    s.equal a b = true ↔ ∃ n, s.equalAt n a b = true := by
  refine ⟨fun h => ⟨_, h⟩, fun ⟨n, h⟩ => hK.equalAt_of_lt ha hb h ?_⟩
  by_cases hstruct : ∃ x, (s.unboxed a).datum = .aggregate x
  · obtain ⟨x, hx⟩ := hstruct
    rw [partRank_of_eq hx]
    exact Nat.lt_succ_of_le (Loc.rank_le _ _ _)
  · rw [partRank_of_ne fun x hx => hstruct ⟨x, hx⟩]
    omega

/-! ## Copies and comparisons that do not end -/

/-- Some struct lies inside itself, in its fields or in boxes in them. -/
def Loops (s : Store) : Prop := ∃ loc, ¬Acc s.Part loc

/-- The location of a struct, as it is or in a box. -/
def structAt? (s : Store) (v : Value) : Option Loc :=
  match (s.unboxed v).datum with
  | .aggregate loc => some loc
  | _ => none

theorem structAt?_eq_some : s.structAt? v = some loc ↔ (s.unboxed v).datum = .aggregate loc := by
  unfold structAt?
  cases (s.unboxed v).datum <;> simp

theorem loops_of_forall {α : Type} {next : α → List α} (value : α → Value) {a : α}
    (hnext : ∀ {a b}, b ∈ next a → ∃ x r, (s.unboxed (value a)).datum = .aggregate x ∧ s.aggregates[x]? = some r ∧
      value b ∈ r.fields) (h : ¬∃ n, descends next n a = true) : s.Loops := by
  by_contra hloops
  refine h (exists_descends_of_acc (R := s.Part) (fun a => s.structAt? (value a))
    (fun loc => by_contra fun h => hloops ⟨loc, h⟩) (fun hb => ?_) a)
  obtain ⟨x, r, hx, hr, hmem⟩ := hnext hb
  exact ⟨x, structAt?_eq_some.2 hx, fun y hy => ⟨r, _, hr, hmem, structAt?_eq_some.1 hy⟩⟩

theorem loops_of_nests (h : s.nests v = false) : s.Loops := by
  refine loops_of_forall id (a := v) (fun {a b} (hb : b ∈ s.inlined a) => ?_) fun hends => ?_
  · obtain ⟨loc, r, hd, hr, hmem⟩ := of_mem_inlined hb
    exact ⟨loc, r, by rwa [id, unboxed_of_ne fun loc' hbox => by cases hd.symm.trans hbox], hr, hmem⟩
  · rw [nests_iff.2 hends] at h
    cases h

theorem subset_through {α : Type} (p : α → Bool) (xs : List α) : through p xs ⊆ xs := by
  induction xs with
  | nil => exact List.Subset.refl _
  | cons x xs ih =>
    rw [through]
    split
    · exact List.cons_subset_cons x ih
    · exact List.cons_subset_cons x (List.nil_subset xs)

theorem of_mem_compared {f g : Value} (h : (f, g) ∈ s.compared (a, b)) : ∃ x y p q, (s.unboxed a).datum = .aggregate x ∧
    (s.unboxed b).datum = .aggregate y ∧ s.aggregates[x]? = some p ∧ s.aggregates[y]? = some q ∧ p.type = q.type ∧
    (f, g) ∈ p.fields.toList.zip q.fields.toList := by
  unfold compared at h
  split at h
  · rename_i x y hx hy
    split at h
    · rename_i p q hp hq
      split at h
      · exact ⟨x, y, p, q, hx, hy, hp, hq, ‹_›, subset_through _ _ h⟩
      · cases h
    · cases h
  · cases h

/-- The number of a pair of structs. -/
def pairCode (s : Store) (ab : Value × Value) : Nat :=
  match (s.unboxed ab.1).datum, (s.unboxed ab.2).datum with
  | .aggregate x, .aggregate y => x * s.aggregates.size + y
  | _, _ => 0

theorem numbered_compared (s : Store) : Numbered s.compared s.pairCode (s.aggregates.size * s.aggregates.size) := by
  have hplaces : ∀ {ab : Value × Value}, s.compared ab ≠ [] → ∃ x y, (s.unboxed ab.1).datum = .aggregate x ∧
      (s.unboxed ab.2).datum = .aggregate y ∧ x < s.aggregates.size ∧ y < s.aggregates.size := by
    rintro ⟨a, b⟩ h
    obtain ⟨⟨f, g⟩, hfg⟩ := List.exists_mem_of_ne_nil _ h
    obtain ⟨x, y, p, q, hx, hy, hp, hq, -⟩ := of_mem_compared hfg
    exact ⟨x, y, hx, hy, (Array.getElem?_eq_some_iff.1 hp).1, (Array.getElem?_eq_some_iff.1 hq).1⟩
  constructor
  · intro ab h
    obtain ⟨x, y, hx, hy, hltx, hlty⟩ := hplaces h
    simp only [pairCode, hx, hy]
    calc x * s.aggregates.size + y < x * s.aggregates.size + s.aggregates.size := Nat.add_lt_add_left hlty _
      _ = (x + 1) * s.aggregates.size := (Nat.succ_mul _ _).symm
      _ ≤ s.aggregates.size * s.aggregates.size := Nat.mul_le_mul_right _ hltx
  · intro ab cd h h' hcode
    obtain ⟨x, y, hx, hy, -, hlty⟩ := hplaces h
    obtain ⟨z, t, hz, ht, -, hltt⟩ := hplaces h'
    simp only [pairCode, hx, hy, hz, ht] at hcode
    have hxz := congrArg (· / s.aggregates.size) hcode
    have hyt := congrArg (· % s.aggregates.size) hcode
    simp only [Nat.mul_comm _ s.aggregates.size, Nat.mul_add_mod, Nat.mod_eq_of_lt hlty, Nat.mod_eq_of_lt hltt,
      Nat.mul_add_div (Nat.zero_lt_of_lt hlty), Nat.div_eq_of_lt hlty, Nat.div_eq_of_lt hltt, Nat.add_zero] at hxz hyt
    subst hxz hyt
    unfold compared
    simp only [hx, hy, hz, ht]

theorem compares_iff : s.compares a b = true ↔ ∃ n, descends s.compared n (a, b) = true :=
  (numbered_compared s).descends_iff

theorem loops_of_compares (h : s.compares a b = false) : s.Loops := by
  -- comparing goes down in the parts of the left struct
  refine loops_of_forall Prod.fst (a := (a, b)) (fun {ab fg} (hfg : fg ∈ s.compared ab) => ?_)
    fun hends => ?_
  · obtain ⟨x, y, p, q, hx, -, hp, -, -, hzip⟩ := of_mem_compared hfg
    exact ⟨x, p, hx, hp, Array.mem_toList_iff.1 (List.of_mem_zip hzip).1⟩
  · rw [compares_iff.2 hends] at h
    cases h

end TreeMachine.Store
