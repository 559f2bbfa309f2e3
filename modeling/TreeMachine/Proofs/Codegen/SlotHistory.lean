import Mathlib.Algebra.BigOperators.Group.Finset.Basic
import TreeMachine.Proofs.Codegen.Slots

/-!
# Histories of the slot allocator

A history is what the calls to an allocator did, latest first. It says without the allocator's table which slots are
in use: a slot is leased to a scope when it is handed out, and the leases of a scope end when the scope is released
(`held`). The table shows these leases (`History.mem_held`), so a slot that is handed out is free.

An allocator that uses slots again makes a new slot only where all slots of the kind are in use, so the number of
slots of a kind is the largest number that was ever in use at one time (`History.peaks`).
-/

open List

namespace TreeMachine

def Slot.kind (sl : Slot) : Option Ty × CaptureMode := (sl.type, sl.capture)

namespace Slots

structure Lease where
  scope : Int
  type : Option Ty
  capture : CaptureMode
  index : Nat

namespace Lease

def kind (l : Lease) : Option Ty × CaptureMode := (l.type, l.capture)

def slot (l : Lease) : Slot := ⟨l.type, l.capture, l.scope, true⟩

theorem eq_of_slot {l l' : Lease} (hi : l.index = l'.index) (hs : l.slot = l'.slot) : l = l' := by
  cases l
  cases l'
  cases hs
  cases hi
  rfl

end Lease

inductive Event where
  | opened
  | leased (l : Lease)
  | released (scope : Int)

namespace Event

def kind? : Event → Option (Option Ty × CaptureMode)
  | leased l => some l.kind
  | _ => none

def next (ls : List Lease) : Event → List Lease
  | opened => ls
  | leased l => l :: ls
  | released scope => ls.filter (·.scope ≠ scope)

end Event

/-- A call that succeeds, and what it did. -/
inductive Step (a : Slots) : Event → Slots → Prop
  | opened : Step a .opened a.openScope.2
  | leased {t : Option Ty} {name : String} {m : CaptureMode} {scope : Int} {i : Nat} {b : Slots} :
    a.allocate t name m scope = .ok (i, b) → Step a (.leased ⟨scope, t, m, i⟩) b
  | released {scope : Int} {b : Slots} : a.release scope = .ok b → Step a (.released scope) b

/-- What calls that all succeed did, from an allocator that has just been made. -/
inductive History (reuse : Bool) : List Event → Slots → Prop
  | nil : History reuse [] (start reuse)
  | step {es : List Event} {a b : Slots} {e : Event} : History reuse es a → Step a e b → History reuse (e :: es) b

variable {a b : Slots} {e : Event} {es : List Event} {k : Option Ty × CaptureMode} {reuse : Bool}
  {t : Option Ty} {name : String} {m : CaptureMode} {scope : Int} {i : Nat} {l : Lease}

def held : List Event → List Lease
  | [] => []
  | e :: es => e.next (held es)

def busy (k : Option Ty × CaptureMode) (es : List Event) : Nat := (held es).countP (·.kind = k)

/-- The largest number of slots of a kind that were in use at one time. -/
def peak (k : Option Ty × CaptureMode) : List Event → Nat
  | [] => 0
  | e :: es => max (peak k es) (busy k (e :: es))

theorem busy_le_peak (k : Option Ty × CaptureMode) : ∀ es, busy k es ≤ peak k es
  | [] => Nat.le_refl _
  | _ :: _ => Nat.le_max_right _ _

/-! ## The table of slots -/

/-- A slot that is handed out was made for the kind before, or it is new. It is new only where reuse is off or all
slots of the kind are in use. -/
theorem allocate_cases (h : a.allocate t name m scope = .ok (i, b)) :
    (a.reuse = true ∧ i < a.count ∧ b = { a with slots := a.slots.setIfInBounds i ⟨t, m, scope, true⟩ }) ∨
      (a.count < limit ∧ b = { a with slots := a.slots.push ⟨t, m, scope, true⟩ } ∧
        (a.reuse = true → ∀ sl ∈ a.slots, sl.kind = (t, m) → sl.live = true)) := by
  unfold allocate at h
  split at h
  · cases h
  · dsimp only at h
    split at h
    · -- a free slot of the kind was found
      rename_i j hj
      cases h
      split_ifs at hj with hreuse
      obtain ⟨hlt, -, -⟩ := Array.findIdx?_eq_some_iff_getElem.1 hj
      exact .inl ⟨hreuse, hlt, rfl⟩
    · rename_i hnone
      split at h
      · cases h
      · rename_i hlimit
        cases h
        refine .inr ⟨Nat.lt_of_not_le hlimit, rfl, fun hreuse sl hsl hkind => ?_⟩
        rw [if_pos hreuse, Array.findIdx?_eq_none_iff] at hnone
        have hbusy := hnone sl hsl
        cases hkind
        simpa using hbusy

def kinds (a : Slots) : List (Option Ty × CaptureMode) := a.slots.toList.map Slot.kind

theorem length_kinds (a : Slots) : a.kinds.length = a.count := by
  simp [kinds, count]

theorem kinds_allocate (h : a.allocate t name m scope = .ok (i, b)) :
    (a.reuse = true ∧ b.kinds = a.kinds) ∨ (b.kinds = a.kinds ++ [(t, m)] ∧
      (a.reuse = true → ∀ sl ∈ a.slots, sl.kind = (t, m) → sl.live = true)) := by
  rcases allocate_cases h with ⟨hreuse, hlt, rfl⟩ | ⟨-, rfl, hbusy⟩
  · refine .inl ⟨hreuse, ?_⟩
    -- the slot that is overwritten has the kind asked for
    have hlt : i < a.slots.size := hlt
    obtain ⟨-, ht, hm⟩ := (allocated_of_allocate h).unused (Array.getElem?_eq_getElem hlt)
    have hkind : (t, m) = a.slots[i].kind := Prod.ext ht.symm hm.symm
    simp only [kinds, Array.toList_setIfInBounds, map_set]
    show (a.slots.toList.map Slot.kind).set i (t, m) = _
    rw [hkind, ← map_set, ← Array.getElem_toList hlt, set_getElem_self]
  · exact .inr ⟨by simp [kinds, Slot.kind], hbusy⟩

theorem kinds_release (h : a.release scope = .ok b) : b.kinds = a.kinds := by
  obtain ⟨-, -, -, hslots⟩ := release_eq_ok h
  rw [kinds, hslots, Array.toList_map, map_map]
  apply map_congr_left
  intro sl _
  show (if sl.scope = scope then { sl with live := false } else sl).kind = sl.kind
  split_ifs <;> rfl

theorem Step.kept (h : a.Step e b) : a.Kept b := by
  cases h with
  | opened => exact (Within.openScope a).toKept
  | leased h => exact (allocated_of_allocate h).kept
  | released h => exact kept_of_release h

def leases (a : Slots) : List Lease :=
  a.slots.toList.zipIdx.filterMap fun p => if p.1.live then some ⟨p.1.scope, p.1.type, p.1.capture, p.2⟩ else none

theorem mem_leases : l ∈ a.leases ↔ a.slots[l.index]? = some l.slot := by
  rw [leases, mem_filterMap]
  constructor
  · rintro ⟨⟨⟨_, _, _, live⟩, j⟩, hmem, hl⟩
    have hsl := mem_zipIdx_iff_getElem?.1 hmem
    split_ifs at hl with hlive
    cases hl
    cases (hlive : live = true)
    rwa [Array.getElem?_toList] at hsl
  · intro hl
    refine ⟨(l.slot, l.index), mem_zipIdx_iff_getElem?.2 (by simpa using hl), ?_⟩
    simp [Lease.slot]

theorem nodup_leases (a : Slots) : a.leases.Nodup := by
  refine List.Nodup.filterMap ?_ ?_
  · rintro ⟨⟨_, _, _, live⟩, j⟩ ⟨⟨_, _, _, live'⟩, j'⟩ l hl hl'
    simp only [Option.mem_def, Option.ite_none_right_eq_some, Option.some.injEq] at hl hl'
    obtain ⟨rfl, rfl⟩ := hl
    obtain ⟨rfl, heq⟩ := hl'
    cases heq
    rfl
  · refine List.Nodup.of_map Prod.snd ?_
    rw [zipIdx_map_snd]
    exact nodup_range'

theorem countP_leases (a : Slots) (k : Option Ty × CaptureMode) :
    a.leases.countP (·.kind = k) = a.slots.toList.countP fun sl => sl.live && sl.kind = k := by
  rw [leases, countP_filterMap]
  conv => rhs; rw [← zipIdx_map_fst 0 a.slots.toList, countP_map]
  apply countP_congr
  rintro ⟨⟨_, _, _, live⟩, j⟩ _
  cases live <;> rfl

theorem countP_leases_le (a : Slots) (k : Option Ty × CaptureMode) :
    a.leases.countP (·.kind = k) ≤ a.kinds.countP (· = k) := by
  rw [countP_leases, kinds, countP_map]
  apply countP_mono_left
  intro sl _ h
  simp only [Bool.and_eq_true] at h
  exact h.2

theorem countP_leases_of_busy (h : ∀ sl ∈ a.slots, sl.kind = k → sl.live = true) :
    a.leases.countP (·.kind = k) = a.kinds.countP (· = k) := by
  rw [countP_leases, kinds, countP_map]
  apply countP_congr
  intro sl hsl
  have hlive := h sl (Array.mem_toList_iff.1 hsl)
  simp only [Bool.and_eq_true, decide_eq_true_eq, Function.comp_apply]
  exact ⟨And.right, fun hk => ⟨hlive hk, hk⟩⟩

/-! ## What a history keeps -/

namespace History

theorem ok (h : History reuse es a) : a.Ok ∧ a.outer = 0 ∧ a.reuse = reuse ∧ a.count ≤ limit := by
  induction h with
  | nil => exact ⟨ok_start reuse, rfl, rfl, Nat.zero_le _⟩
  | @step es a b e _ hstep ih =>
    obtain ⟨hok, houter, hreuse, hlimit⟩ := ih
    cases hstep with
    | opened => exact ⟨hok.openScope, houter, hreuse, hlimit⟩
    | leased hb =>
      have hall := allocated_of_allocate hb
      refine ⟨hok.allocated hall, hall.outer.trans houter, ?_⟩
      rcases allocate_cases hb with ⟨-, -, rfl⟩ | ⟨hlt, rfl, -⟩
      · exact ⟨hreuse, by simpa [count] using hlimit⟩
      · exact ⟨hreuse, by simpa only [count, Array.size_push] using Nat.succ_le_of_lt hlt⟩
    | released hb =>
      refine ⟨hok.release hb, (release_eq_ok hb).2.1.trans houter, ?_, ?_⟩
      · unfold release at hb
        split at hb
        · split_ifs at hb
          cases hb
          exact hreuse
        · cases hb
      · rwa [← length_kinds, kinds_release hb, length_kinds]

theorem mem_held (h : History reuse es a) {l : Lease} : l ∈ held es ↔ a.slots[l.index]? = some l.slot := by
  induction h generalizing l with
  | nil => simp [held, start]
  | @step es a b e _ hstep ih =>
    cases hstep with
    | opened => exact ih
    | @leased t _ m scope i _ hb =>
      have hall := allocated_of_allocate hb
      show l ∈ (⟨scope, t, m, i⟩ : Lease) :: held es ↔ _
      rw [mem_cons, ih]
      by_cases hi : l.index = i
      · subst hi
        rw [hall.slot]
        constructor
        · rintro (heq | hold)
          · rw [heq]
            rfl
          · exact absurd rfl (hall.ne_of_live hold rfl)
        · exact fun hs => .inl (Lease.eq_of_slot rfl (Option.some.inj hs).symm)
      · rw [hall.other hi]
        exact ⟨fun hl => hl.resolve_left fun heq => hi (by rw [heq]), .inr⟩
    | released hb =>
      rw [slot_of_release hb rfl, ← ih]
      simp [held, Event.next, Lease.slot]

theorem fresh (h : History reuse (.leased l :: es) b) : ∀ l' ∈ held es, l'.index ≠ l.index := by
  cases h with
  | step h hstep =>
    cases hstep with
    | leased hb => exact fun l' hl' => (allocated_of_allocate hb).ne_of_live (h.mem_held.1 hl') rfl

theorem suffix (h : History reuse es a) {es' : List Event} (hes : es' <:+ es) : ∃ a', History reuse es' a' := by
  induction h with
  | nil =>
    obtain rfl := suffix_nil.1 hes
    exact ⟨_, .nil⟩
  | step h hstep ih =>
    rcases suffix_cons_iff.1 hes with rfl | hes
    · exact ⟨_, .step h hstep⟩
    · exact ih hes

theorem nodup (h : History reuse es a) : (held es).Nodup := by
  induction h with
  | nil => exact nodup_nil
  | @step es a b e h hstep ih =>
    cases e with
    | opened => exact ih
    | leased l => exact nodup_cons.2 ⟨fun hl => (h.step hstep).fresh l hl rfl, ih⟩
    | released scope => exact ih.filter _

theorem nodup_index (h : History reuse es a) : ((held es).map (·.index)).Nodup := by
  refine h.nodup.map_on fun l hl l' hl' hi => ?_
  have hs := h.mem_held.1 hl
  rw [hi, h.mem_held.1 hl'] at hs
  exact Lease.eq_of_slot hi (Option.some.inj hs).symm

theorem isOpen (h : History reuse es a) (hl : l ∈ held es) : a.isOpen l.scope = true := by
  have hopen : l.scope = a.outer ∨ l.scope ∈ a.inner := h.ok.1.live (h.mem_held.1 hl) rfl
  simpa only [Slots.isOpen, Bool.or_eq_true, decide_eq_true_eq, contains_iff_mem] using hopen

theorem kind_of_leased (h : History reuse es a) (hl : .leased l ∈ es) :
    ∃ sl, a.slots[l.index]? = some sl ∧ sl.type = l.type ∧ sl.capture = l.capture := by
  induction h with
  | nil => cases hl
  | step h hstep ih =>
    rcases mem_cons.1 hl with rfl | hl
    · exact ⟨_, (h.step hstep).mem_held.1 mem_cons_self, rfl, rfl⟩
    · obtain ⟨sl, hsl, ht, hm⟩ := ih hl
      obtain ⟨sl', hsl', ht', hm'⟩ := hstep.kept.slot hsl
      exact ⟨sl', hsl', ht'.trans ht, hm'.trans hm⟩

theorem mem_held_of_outer (h : History reuse es a) (hl : .leased l ∈ es) (hzero : l.scope = 0) : l ∈ held es := by
  induction h with
  | nil => cases hl
  | step h hstep ih =>
    cases hstep with
    | opened => exact ih (by simpa using hl)
    | leased hb =>
      rcases mem_cons.1 hl with heq | hl
      · cases heq
        exact mem_cons_self
      · exact mem_cons_of_mem _ (ih hl)
    | @released scope _ hb =>
      -- the scope that is released is an inner one
      have hinner := h.ok.1.inner_lt scope (by rw [(release_eq_ok hb).1]; exact mem_cons_self)
      rw [h.ok.2.1] at hinner
      refine mem_filter.2 ⟨ih (by simpa using hl), ?_⟩
      simp only [decide_eq_true_eq]
      omega

/-! ## How many slots there are -/

theorem busy_eq (h : History reuse es a) (k : Option Ty × CaptureMode) : busy k es = a.leases.countP (·.kind = k) :=
  ((perm_ext_iff_of_nodup h.nodup a.nodup_leases).2 fun _ => h.mem_held.trans mem_leases.symm).countP_eq _

theorem known (h : History reuse es a) : ∀ k ∈ a.kinds, k ∈ es.filterMap Event.kind? := by
  induction h with
  | nil => simp [kinds, start]
  | step h hstep ih =>
    intro k hk
    cases hstep with
    | opened => exact ih k hk
    | leased hb =>
      rcases kinds_allocate hb with ⟨-, hkinds⟩ | ⟨hkinds, -⟩
      · exact mem_cons_of_mem _ (ih k (hkinds ▸ hk))
      · rw [hkinds, mem_append, mem_singleton] at hk
        rcases hk with hk | rfl
        · exact mem_cons_of_mem _ (ih k hk)
        · exact mem_cons_self
    | released hb => exact ih k (kinds_release hb ▸ hk)

/-- With reuse there are as many slots of a kind as were in use at one time. -/
theorem peaks (h : History true es a) (k : Option Ty × CaptureMode) : a.kinds.countP (· = k) = peak k es := by
  induction h with
  | nil => rfl
  | @step es a b e h hstep ih =>
    have hbusy := (h.step hstep).busy_eq k
    have hle := countP_leases_le b k
    have hpeak := busy_le_peak k es
    show _ = max (peak k es) (busy k (e :: es))
    cases hstep with
    | opened =>
      show _ = max (peak k es) (busy k es)
      rw [Nat.max_eq_left hpeak]
      exact ih
    | @leased t _ m scope i _ hb =>
      rcases kinds_allocate hb with ⟨-, hkinds⟩ | ⟨hkinds, hall⟩
      · -- no new slot, so what is in use stays below the number of slots
        rw [hkinds] at hle ⊢
        omega
      · have hone : busy k (.leased ⟨scope, t, m, i⟩ :: es) = busy k es + if (t, m) = k then 1 else 0 := by
          simp only [busy, held, Event.next, countP_cons, decide_eq_true_eq]
          rfl
        rw [hkinds, countP_append, countP_singleton, ih, hone]
        by_cases hk : (t, m) = k
        · -- all slots of the kind were in use, so this is a new peak
          subst hk
          have hfull := countP_leases_of_busy (hall h.ok.2.2.1)
          rw [← h.busy_eq, ih] at hfull
          simp [hfull]
        · simp only [decide_eq_true_eq, if_neg hk]
          omega
    | @released scope _ hb =>
      have hless : busy k (.released scope :: es) ≤ busy k es := filter_sublist.countP_le
      rw [kinds_release hb, ih]
      omega

theorem count_eq_leased (h : History false es a) : a.count = es.countP fun e => e.kind?.isSome := by
  induction h with
  | nil => rfl
  | step h hstep ih =>
    cases hstep with
    | opened => exact ih
    | leased hb =>
      rcases kinds_allocate hb with ⟨hreuse, -⟩ | ⟨hkinds, -⟩
      · rw [h.ok.2.2.1] at hreuse
        cases hreuse
      · rw [← length_kinds, hkinds, length_append, length_kinds, ih, countP_cons_of_pos rfl]
        rfl
    | released hb => rwa [← length_kinds, kinds_release hb, length_kinds]

theorem count_eq (h : History reuse es a) : a.count =
    if reuse then ∑ k ∈ (es.filterMap Event.kind?).toFinset, peak k es else es.countP fun e => e.kind?.isSome := by
  cases reuse with
  | false => exact h.count_eq_leased
  | true =>
    have hknown : ∀ k ∈ (a.kinds : Multiset _), k ∈ (es.filterMap Event.kind?).toFinset :=
      fun k hk => mem_toFinset.2 (h.known k (Multiset.mem_coe.1 hk))
    have hsum := Multiset.sum_count_eq_card hknown
    rw [Multiset.coe_card, length_kinds] at hsum
    rw [if_pos rfl, ← hsum]
    refine Finset.sum_congr rfl fun k _ => ?_
    rw [← h.peaks, Multiset.coe_count]
    rfl

/-- **Slots that are handed out are free**, keep their kind, and are no more than are needed. -/
theorem leases_apart (h : History reuse es a) :
    (∀ l before, .leased l :: before <:+ es → ∀ l' ∈ held before, l'.index ≠ l.index) ∧
    (∀ l, l ∈ held es ↔ a.slots[l.index]? = some l.slot) ∧ (∀ l ∈ held es, a.isOpen l.scope = true) ∧
    ((held es).map (·.index)).Nodup ∧ (∀ l ∈ held es, l.index < a.count) ∧ a.count ≤ limit ∧
    (∀ l, .leased l ∈ es → ∃ sl, a.slots[l.index]? = some sl ∧ sl.type = l.type ∧ sl.capture = l.capture) ∧
    (∀ l before, .leased l :: before <:+ es → ∀ l', .leased l' ∈ before → l'.scope = 0 → l'.index ≠ l.index) ∧
    a.count =
      if reuse then ∑ k ∈ (es.filterMap Event.kind?).toFinset, peak k es
      else es.countP fun e => e.kind?.isSome := by
  refine ⟨fun l before hl => ?_, fun _ => h.mem_held, fun _ => h.isOpen, h.nodup_index, fun l hl => ?_, h.ok.2.2.2,
    fun _ => h.kind_of_leased, fun l before hl l' hl' hzero => ?_, h.count_eq⟩
  · obtain ⟨_, hthen⟩ := h.suffix hl
    exact hthen.fresh
  · exact (Array.getElem?_eq_some_iff.1 (h.mem_held.1 hl)).1
  · obtain ⟨_, hthen⟩ := h.suffix hl
    obtain ⟨_, hbefore⟩ := hthen.suffix (suffix_cons _ _)
    exact hthen.fresh l' (hbefore.mem_held_of_outer hl' hzero)

/-- The slot of a scope that ended goes to the function. -/
theorem leases_apart_outlived : ∃ es a, History true es a ∧ es.length = 4 ∧ (held es).map (·.index) = [0] ∧
    a.count = ∑ k ∈ (es.filterMap Event.kind?).toFinset, peak k es := by
  have hx : (start true).openScope.2.allocate (some .int32) "x" .none 1 =
    .ok (0, ⟨#[⟨some .int32, .none, 1, true⟩], [1], 0, 2, true⟩) := by decide +kernel
  have hend : (⟨#[⟨some .int32, .none, 1, true⟩], [1], 0, 2, true⟩ : Slots).release 1 =
    .ok ⟨#[⟨some .int32, .none, 1, false⟩], [], 0, 2, true⟩ := by decide +kernel
  have hy : (⟨#[⟨some .int32, .none, 1, false⟩], [], 0, 2, true⟩ : Slots).allocate (some .int32) "y" .none 0 =
    .ok (0, ⟨#[⟨some .int32, .none, 0, true⟩], [], 0, 2, true⟩) := by decide +kernel
  have h := (((History.nil.step .opened).step (.leased hx)).step (.released hend)).step (.leased hy)
  exact ⟨_, _, h, rfl, rfl, (leases_apart h).2.2.2.2.2.2.2.2⟩

end History

end Slots

end TreeMachine
