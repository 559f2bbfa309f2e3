import Mathlib.Tactic.SplitIfs
import TreeMachine.Codegen.Slots
import Mathlib.Tactic.ByContra

/-!
# Scopes and slots

What the steps of the slot allocator do to the slots that are in use. Two relations carry the
arguments about code that opens and closes scopes. Opening a scope starts a `Within`, allocating in it
and restored steps keep it, and releasing the scope turns it into a `Restored`.
-/

namespace TreeMachine.Slots

structure Ok (a : Slots) : Prop where
  outer_lt : a.outer < a.next
  inner_lt : ∀ i ∈ a.inner, a.outer < i ∧ i < a.next
  nodup : a.inner.Nodup
  live : ∀ {i : Nat} {sl : Slot}, a.slots[i]? = some sl → sl.live = true →
    sl.scope = a.outer ∨ sl.scope ∈ a.inner

theorem ok_start (reuse : Bool) : (start reuse).Ok where
  outer_lt := by simp [start]
  inner_lt := by simp [start]
  nodup := by simp [start]
  live h := by simp [start] at h

def mode (a : Slots) (i : Nat) : Option CaptureMode := (a.slots[i]?).map (·.capture)

variable {a : Slots} {i : Nat} {sl : Slot}

theorem mode_eq (h : a.slots[i]? = some sl) : a.mode i = some sl.capture := by
  rw [mode, h]
  rfl

structure Kept (a b : Slots) : Prop where
  slot : ∀ {i : Nat} {sl : Slot}, a.slots[i]? = some sl →
    ∃ sl', b.slots[i]? = some sl' ∧ sl'.type = sl.type ∧ sl'.capture = sl.capture

namespace Kept

theorem refl (a : Slots) : a.Kept a := ⟨fun {_ sl} h => ⟨sl, h, rfl, rfl⟩⟩

variable {a b : Slots}

theorem trans {c : Slots} (h : a.Kept b) (h' : b.Kept c) : a.Kept c := by
  refine ⟨fun {i sl} hs => ?_⟩
  obtain ⟨sl', hs', ht', hc'⟩ := h.slot hs
  obtain ⟨sl'', hs'', ht'', hc''⟩ := h'.slot hs'
  exact ⟨sl'', hs'', ht''.trans ht', hc''.trans hc'⟩

theorem mode (h : a.Kept b) (i : Nat) (m : CaptureMode) (hm : a.mode i = some m) : b.mode i = some m := by
  obtain ⟨sl, hs, rfl⟩ := Option.map_eq_some_iff.1 hm
  obtain ⟨sl', hs', -, hc⟩ := h.slot hs
  rw [mode_eq hs', hc]

end Kept

/-! ## What the steps do -/

structure Allocated (a : Slots) (t : Option Ty) (m : CaptureMode) (scope : Int) (i : Nat) (b : Slots) : Prop where
  isOpen : scope = a.outer ∨ scope ∈ a.inner
  inner : b.inner = a.inner
  outer : b.outer = a.outer
  next : b.next = a.next
  slot : b.slots[i]? = some ⟨t, m, scope, true⟩
  other : ∀ {j : Nat}, j ≠ i → b.slots[j]? = a.slots[j]?
  unused : ∀ {sl : Slot}, a.slots[i]? = some sl → sl.live = false ∧ sl.type = t ∧ sl.capture = m
  lt_limit : i < limit ∨ i < a.count

variable {b : Slots} {t : Option Ty} {m : CaptureMode} {scope : Int}

theorem allocated_of_allocate {name : String} (h : a.allocate t name m scope = .ok (i, b)) :
    a.Allocated t m scope i b := by
  unfold allocate at h
  cases hopen : a.isOpen scope with
  | false => simp [hopen] at h
  | true =>
    have hopen' : scope = a.outer ∨ scope ∈ a.inner := by
      simpa only [isOpen, Bool.or_eq_true, decide_eq_true_eq, List.contains_iff_mem] using hopen
    simp only [hopen, Bool.not_true, Bool.false_eq_true, if_false] at h
    split at h
    · -- a slot is used again
      rename_i j hj
      cases h
      have hfree : a.slots.findIdx? (fun s => !s.live && s.type = t && s.capture = m) = some i := by
        split_ifs at hj
        exact hj
      obtain ⟨hlt, hfound, -⟩ := Array.findIdx?_eq_some_iff_getElem.1 hfree
      simp only [Bool.and_eq_true, Bool.not_eq_true', decide_eq_true_eq] at hfound
      refine ⟨hopen', rfl, rfl, rfl, ?_, ?_, ?_, .inr hlt⟩
      · exact Array.getElem?_setIfInBounds_self_of_lt hlt
      · intro k hk
        exact Array.getElem?_setIfInBounds_ne (Ne.symm hk)
      · intro sl hsl
        rw [Array.getElem?_eq_getElem hlt] at hsl
        cases hsl
        exact ⟨hfound.1.1, hfound.1.2, hfound.2⟩
    · -- a new slot
      split at h
      · cases h
      · rename_i hlimit
        cases h
        refine ⟨hopen', rfl, rfl, rfl, by simp, ?_, ?_, .inl (by omega)⟩
        · intro k hk
          simp [Array.getElem?_push, hk]
        · intro sl hsl
          simp at hsl

theorem Allocated.kept (h : a.Allocated t m scope i b) : a.Kept b := by
  refine ⟨fun {j sl} hs => ?_⟩
  by_cases hj : j = i
  · subst hj
    obtain ⟨-, ht, hm⟩ := h.unused hs
    exact ⟨_, h.slot, ht.symm, hm.symm⟩
  · exact ⟨sl, by rw [h.other hj, hs], rfl, rfl⟩

variable {j : Nat}

theorem Allocated.ne_of_live (h : a.Allocated t m scope i b) (hs : a.slots[j]? = some sl) (hl : sl.live = true) :
    j ≠ i := by
  rintro rfl
  rw [(h.unused hs).1] at hl
  cases hl

theorem Allocated.live (h : a.Allocated t m scope i b) (hs : a.slots[j]? = some sl) (hl : sl.live = true) :
    b.slots[j]? = some sl := by
  rw [h.other (h.ne_of_live hs hl), hs]

theorem Allocated.eq_size (h : a.Allocated t m scope i b)
    (hlive : ∀ {j : Nat} {sl : Slot}, a.slots[j]? = some sl → sl.live = true) : i = a.slots.size := by
  have hge : a.slots.size ≤ i := by
    by_contra hlt
    have hs := Array.getElem?_eq_getElem (Nat.lt_of_not_le hlt)
    exact h.ne_of_live hs (hlive hs) rfl
  have hlt : i < b.slots.size := (Array.getElem?_eq_some_iff.1 h.slot).1
  by_contra hne
  -- otherwise there would be a slot between the last one and the new one
  have hnone : b.slots[a.slots.size]? = none := by
    rw [h.other (Ne.symm hne)]
    exact Array.getElem?_eq_none (Nat.le_refl _)
  have := Array.getElem?_eq_none_iff.1 hnone
  omega

theorem Allocated.all_live (h : a.Allocated t m scope i b)
    (hlive : ∀ {j : Nat} {sl : Slot}, a.slots[j]? = some sl → sl.live = true) :
    b.slots.size = a.slots.size + 1 ∧ ∀ {j : Nat} {sl : Slot}, b.slots[j]? = some sl → sl.live = true := by
  obtain rfl := h.eq_size hlive
  constructor
  · have hlt := (Array.getElem?_eq_some_iff.1 h.slot).1
    have hnone : b.slots[a.slots.size + 1]? = none := by
      rw [h.other (by omega)]
      exact Array.getElem?_eq_none (by omega)
    have := Array.getElem?_eq_none_iff.1 hnone
    omega
  · intro j sl hs
    by_cases hj : j = a.slots.size
    · subst hj
      rw [h.slot] at hs
      cases hs
      rfl
    · rw [h.other hj] at hs
      exact hlive hs

theorem Ok.allocated (ha : a.Ok) (h : a.Allocated t m scope i b) : b.Ok where
  outer_lt := by rw [h.outer, h.next]; exact ha.outer_lt
  inner_lt := by rw [h.inner, h.outer, h.next]; exact ha.inner_lt
  nodup := by rw [h.inner]; exact ha.nodup
  live := by
    intro j sl hs hl
    rw [h.outer, h.inner]
    by_cases hj : j = i
    · subst hj
      rw [h.slot] at hs
      cases hs
      exact h.isOpen
    · rw [h.other hj] at hs
      exact ha.live hs hl

theorem Ok.openScope (ha : a.Ok) : a.openScope.2.Ok where
  outer_lt := by have := ha.outer_lt; simp only [Slots.openScope]; omega
  inner_lt := by
    intro i hi
    have := ha.outer_lt
    simp only [Slots.openScope, List.mem_cons] at hi ⊢
    rcases hi with rfl | hi
    · omega
    · have := ha.inner_lt i hi
      omega
  nodup := by
    refine List.nodup_cons.2 ⟨fun hmem => ?_, ha.nodup⟩
    have := ha.inner_lt _ hmem
    omega
  live h hl := (ha.live h hl).imp id fun hmem => List.mem_cons_of_mem _ hmem

theorem release_eq_ok (h : a.release scope = .ok b) :
    a.inner = scope :: b.inner ∧ b.outer = a.outer ∧ b.next = a.next ∧
      b.slots = a.slots.map fun t => if t.scope = scope then { t with live := false } else t := by
  unfold release at h
  split at h
  · rename_i s rest hinner
    split_ifs at h with hs
    cases h
    subst hs
    exact ⟨hinner, rfl, rfl, rfl⟩
  · cases h

theorem slot_of_release (h : a.release scope = .ok b) (hl : sl.live = true) :
    b.slots[i]? = some sl ↔ a.slots[i]? = some sl ∧ sl.scope ≠ scope := by
  obtain ⟨-, -, -, hslots⟩ := release_eq_ok h
  rw [hslots, Array.getElem?_map]
  constructor
  · intro hm
    obtain ⟨sl', hs', hsl⟩ := Option.map_eq_some_iff.1 hm
    split_ifs at hsl with hscope
    · subst hsl
      cases hl
    · subst hsl
      exact ⟨hs', hscope⟩
  · rintro ⟨hs, hne⟩
    rw [hs, Option.map_some, if_neg hne]

theorem kept_of_release (h : a.release scope = .ok b) : a.Kept b := by
  obtain ⟨-, -, -, hslots⟩ := release_eq_ok h
  refine ⟨fun {i sl} hs => ?_⟩
  rw [hslots, Array.getElem?_map, hs]
  refine ⟨_, rfl, ?_, ?_⟩
  · dsimp only
    split_ifs <;> rfl
  · dsimp only
    split_ifs <;> rfl

theorem Ok.release (ha : a.Ok) (h : a.release scope = .ok b) : b.Ok := by
  obtain ⟨hinner, houter, hnext, -⟩ := release_eq_ok h
  refine ⟨by rw [houter, hnext]; exact ha.outer_lt, fun i hi => ?_, ?_, fun {i sl} hs hl => ?_⟩
  · rw [houter, hnext]
    exact ha.inner_lt i (by rw [hinner]; exact List.mem_cons_of_mem _ hi)
  · have := ha.nodup
    rw [hinner] at this
    exact (List.nodup_cons.1 this).2
  · obtain ⟨hs, hne⟩ := (slot_of_release h hl).1 hs
    have := ha.live hs hl
    rw [hinner] at this
    rw [houter]
    rcases this with ho | hi
    · exact .inl ho
    · exact .inr (((List.mem_cons.1 hi).resolve_left hne))

/-! ## Balanced steps -/

structure Restored (a b : Slots) : Prop extends Kept a b where
  inner : b.inner = a.inner
  outer : b.outer = a.outer
  live : ∀ {i : Nat} {sl : Slot}, sl.live = true → (b.slots[i]? = some sl ↔ a.slots[i]? = some sl)

namespace Restored

theorem refl (a : Slots) : a.Restored a := ⟨.refl a, rfl, rfl, fun _ => .rfl⟩

theorem trans {a b c : Slots} (h : a.Restored b) (h' : b.Restored c) : a.Restored c :=
  ⟨h.toKept.trans h'.toKept, h'.inner.trans h.inner, h'.outer.trans h.outer,
    fun hl => (h'.live hl).trans (h.live hl)⟩

end Restored

/-- One more scope, `id`, is open, and the live slots are those from before and some of this scope. -/
structure Within (id : Int) (a b : Slots) : Prop extends Kept a b where
  id_eq : id = a.next
  inner : b.inner = id :: a.inner
  outer : b.outer = a.outer
  old : ∀ {i : Nat} {sl : Slot}, sl.live = true → a.slots[i]? = some sl → b.slots[i]? = some sl
  new : ∀ {i : Nat} {sl : Slot}, sl.live = true → b.slots[i]? = some sl →
    sl.scope = id ∨ a.slots[i]? = some sl

namespace Within

variable {id : Int} {a b c : Slots}

theorem openScope (a : Slots) : Within a.openScope.1 a a.openScope.2 where
  slot h := ⟨_, h, rfl, rfl⟩
  id_eq := rfl
  inner := rfl
  outer := rfl
  old _ h := h
  new _ h := .inr h

theorem allocated (h : Within id a b) {t : Option Ty} {m : CaptureMode} {i : Nat}
    (hc : b.Allocated t m id i c) : Within id a c where
  toKept := h.toKept.trans hc.kept
  id_eq := h.id_eq
  inner := hc.inner.trans h.inner
  outer := hc.outer.trans h.outer
  old hl hs := hc.live (h.old hl hs) hl
  new := by
    intro j sl hl hs
    by_cases hj : j = i
    · subst hj
      rw [hc.slot] at hs
      cases hs
      exact .inl rfl
    · rw [hc.other hj] at hs
      exact h.new hl hs

theorem restored (h : Within id a b) (hc : b.Restored c) : Within id a c where
  toKept := h.toKept.trans hc.toKept
  id_eq := h.id_eq
  inner := hc.inner.trans h.inner
  outer := hc.outer.trans h.outer
  old hl hs := (hc.live hl).2 (h.old hl hs)
  new hl hs := h.new hl ((hc.live hl).1 hs)

theorem release (h : Within id a b) (ha : a.Ok) (hc : b.release id = .ok c) : a.Restored c where
  toKept := h.toKept.trans (kept_of_release hc)
  inner := by
    have := (release_eq_ok hc).1
    rw [h.inner] at this
    exact (List.cons.inj this).2.symm
  outer := (release_eq_ok hc).2.1.trans h.outer
  live := by
    intro i sl hl
    rw [slot_of_release hc hl]
    constructor
    · rintro ⟨hs, hne⟩
      exact (h.new hl hs).resolve_left hne
    · intro hs
      refine ⟨h.old hl hs, ?_⟩
      -- scopes that are open are older than the one just opened
      have hnext := ha.outer_lt
      rw [h.id_eq]
      rcases ha.live hs hl with ho | hi
      · omega
      · have := ha.inner_lt _ hi
        omega

end Within

end TreeMachine.Slots
