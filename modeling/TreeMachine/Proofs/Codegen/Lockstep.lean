import TreeMachine.Proofs.Code.Renaming
import TreeMachine.Proofs.Codegen.Sequence

/-!
# Two compilations in lockstep

One compilation hands out a new slot each time, the other one uses slots again. They emit the same
instructions with different slots. `Paired w s t` says that a state `s` of the first one and a state `t` of
the second one correspond: the code so far is renamed code (`Renamed`), and the rest is the same where it
does not name slots. The pairing `w` holds what changes from step to step.

* **`Steps w w' x y`** says that where `x` succeeds, `y` does, with the same result, and leads from states
  paired by `w` to states paired by `w'`. `Agrees x y` is the case of a piece of code that leaves the pairing
  as it is, which the code of a node does.
-/

open List

namespace TreeMachine

open TreeMachine.EStateM

/-! ## Slots -/

structure Placement where
  left : Nat
  right : Nat
  scope : Int

namespace Slots

/-- The slots in use correspond; `b` uses slots again and never has more than `a`. -/
structure Matched (live : List Placement) (a b : Slots) : Prop where
  inner : b.inner = a.inner
  outer : b.outer = a.outer
  next : b.next = a.next
  fresh : a.reuse = false
  fewer : b.slots.size ≤ a.slots.size
  le_limit : a.slots.size ≤ limit
  open_lt : ∀ i ∈ a.outer :: a.inner, i < a.next
  left_lt : ∀ x ∈ live, x.left < a.slots.size
  right_live : ∀ x ∈ live, ∃ sl, b.slots[x.right]? = some sl ∧ sl.live = true ∧ sl.scope = x.scope
  scope_lt : ∀ x ∈ live, x.scope < a.next
  unique : ∀ x ∈ live, ∀ y ∈ live, x.left = y.left ↔ x.right = y.right

namespace Matched

variable {live live' : List Placement} {a b a' : Slots} {scope : Int}

theorem right_lt (h : Matched live a b) {x : Placement} (hx : x ∈ live) : x.right < b.slots.size := by
  obtain ⟨sl, hs, -⟩ := h.right_live x hx
  exact (Array.getElem?_eq_some_iff.1 hs).1

theorem mono (h : Matched live a b) (hsub : live' ⊆ live) : Matched live' a b :=
  { h with
    left_lt := fun x hx => h.left_lt x (hsub hx)
    right_live := fun x hx => h.right_live x (hsub hx)
    scope_lt := fun x hx => h.scope_lt x (hsub hx)
    unique := fun x hx y hy => h.unique x (hsub hx) y (hsub hy) }

theorem openScope (h : Matched live a b) :
    b.openScope.1 = a.openScope.1 ∧ Matched live a.openScope.2 b.openScope.2 := by
  refine ⟨h.next, ?_⟩
  exact
    { h with
      inner := by simp only [Slots.openScope, h.inner, h.next]
      next := by simp only [Slots.openScope, h.next]
      open_lt := fun i hi => by
        have hlt := h.open_lt i
        simp only [Slots.openScope, mem_cons] at hi hlt ⊢
        rcases hi with rfl | rfl | hi
        · have := hlt (.inl rfl)
          omega
        · omega
        · have := hlt (.inr hi)
          omega
      scope_lt := fun x hx => by
        have := h.scope_lt x hx
        simp only [Slots.openScope]
        omega }

/-- **Handing out a slot.** The first allocator takes a new one; the second one has room, because it has
no more slots than the first one had. -/
theorem allocate (h : Matched live a b) {t : Option Ty} {name : String} {m : CaptureMode} {i : Nat}
    (ha : a.allocate t name m scope = .ok (i, a')) :
    ∃ j b', b.allocate t name m scope = .ok (j, b') ∧ Matched (⟨i, j, scope⟩ :: live) a' b' ∧
      (∀ x ∈ live, x.left ≠ i ∧ x.right ≠ j) ∧ a.slots.size ≤ a'.slots.size ∧ b.slots.size ≤ b'.slots.size := by
  have hisOpen : b.isOpen scope = a.isOpen scope := by simp only [isOpen, h.inner, h.outer]
  -- the first allocator does not look for a slot to use again
  obtain ⟨hopen, hroom, rfl, rfl⟩ : a.isOpen scope = true ∧ a.slots.size < limit ∧ i = a.slots.size ∧
      a' = { a with slots := a.slots.push ⟨t, m, scope, true⟩ } := by
    unfold Slots.allocate at ha
    simp only [h.fresh, Bool.false_eq_true, if_false] at ha
    split_ifs at ha with hopen hfull
    cases ha
    exact ⟨by simpa using hopen, Nat.lt_of_not_le hfull, rfl, by rw [h.fresh]⟩
  obtain ⟨j, b', hb⟩ : ∃ j b', b.allocate t name m scope = .ok (j, b') := by
    unfold Slots.allocate
    simp only [hisOpen, hopen, Bool.not_true, Bool.false_eq_true, if_false]
    split
    · exact ⟨_, _, rfl⟩
    · have := h.fewer
      rw [if_neg (by omega)]
      exact ⟨_, _, rfl⟩
  have hgrown : b.slots.size ≤ b'.slots.size ∧ b'.slots.size ≤ b.slots.size + 1 := by
    unfold Slots.allocate at hb
    simp only [hisOpen, hopen, Bool.not_true, Bool.false_eq_true, if_false] at hb
    split at hb
    · cases hb
      simp
    · split_ifs at hb
      cases hb
      simp
  have hall := allocated_of_allocate hb
  have hapart : ∀ x ∈ live, x.left ≠ a.slots.size ∧ x.right ≠ j := by
    intro x hx
    obtain ⟨sl, hs, hl, -⟩ := h.right_live x hx
    exact ⟨Nat.ne_of_lt (h.left_lt x hx), hall.ne_of_live hs hl⟩
  have hscope : scope < a.next := by
    refine h.open_lt scope ?_
    simpa only [isOpen, Bool.or_eq_true, decide_eq_true_eq, contains_iff_mem, mem_cons] using hopen
  refine ⟨j, b', hb, ?_, hapart, by simp, hgrown.1⟩
  exact
    { inner := hall.inner.trans h.inner
      outer := hall.outer.trans h.outer
      next := hall.next.trans h.next
      fresh := h.fresh
      fewer := by
        have := h.fewer
        simp only [Array.size_push]
        omega
      le_limit := by rw [Array.size_push]; exact hroom
      open_lt := h.open_lt
      left_lt := by
        intro x hx
        simp only [Array.size_push]
        rcases mem_cons.1 hx with rfl | hx
        · exact Nat.lt_succ_self _
        · exact Nat.lt_succ_of_lt (h.left_lt x hx)
      right_live := by
        intro x hx
        rcases mem_cons.1 hx with rfl | hx
        · exact ⟨_, hall.slot, rfl, rfl⟩
        · obtain ⟨sl, hs, hl, hsc⟩ := h.right_live x hx
          exact ⟨sl, hall.live hs hl, hl, hsc⟩
      scope_lt := forall_mem_cons.2 ⟨hscope, h.scope_lt⟩
      unique := by
        intro x hx y hy
        rcases mem_cons.1 hx with rfl | hx <;> rcases mem_cons.1 hy with rfl | hy
        · simp
        · simp [Ne.symm (hapart y hy).1, Ne.symm (hapart y hy).2]
        · simp [(hapart x hx).1, (hapart x hx).2]
        · exact h.unique x hx y hy }

/-- **Taking back a scope.** What other scopes own stays in use. -/
theorem release (h : Matched live a b) (ha : a.release scope = .ok a') (hsub : live' ⊆ live)
    (hother : ∀ x ∈ live', x.scope ≠ scope) :
    ∃ b', b.release scope = .ok b' ∧ Matched live' a' b' ∧ a'.slots.size = a.slots.size ∧
      b'.slots.size = b.slots.size := by
  have h' := h.mono hsub
  unfold Slots.release at ha
  split at ha
  · rename_i s rest hinner
    split_ifs at ha with hs
    cases ha
    subst hs
    have hb : b.release s = .ok { b with
        inner := rest
        slots := b.slots.map fun t => if t.scope = s then { t with live := false } else t } := by
      unfold Slots.release
      rw [h.inner, hinner]
      exact if_pos rfl
    refine ⟨_, hb, ?_, by simp, by simp⟩
    exact
      { h' with
        inner := rfl
        fewer := by simpa using h.fewer
        le_limit := by simpa using h.le_limit
        open_lt := fun i hi => h.open_lt i (by
          rw [hinner]
          simp only [mem_cons] at hi ⊢
          tauto)
        left_lt := fun x hx => by simpa using h'.left_lt x hx
        right_live := fun x hx => by
          obtain ⟨sl, hsl, hl, hsc⟩ := h'.right_live x hx
          refine ⟨sl, (slot_of_release hb hl).2 ⟨hsl, ?_⟩, hl, hsc⟩
          rw [hsc]
          exact hother x hx }
  · cases ha

end Matched

end Slots

namespace Codegen

/-! ## States -/

abbrev Context.reusing (ctx : Context) (r : Bool) : Context :=
  { ctx with options := { ctx.options with reuseSlots := r } }

structure BindingAlike (known : SlotPairs) (x y : Nat × Binding) : Prop where
  id : y.1 = x.1
  place : y.2.place = x.2.place
  number : y.2.number = x.2.number
  index : match x.2.place with
    | .slot | .slotCell => (x.2.index, y.2.index) ∈ known
    | .free | .freeCell => y.2.index = x.2.index

structure Pairing where
  image : Image
  image' : Image
  opened : List (Nat × SlotPairs)
  live : List Placement
  known : SlotPairs
  left : Bindings
  right : Bindings

namespace Pairing

def Holds (w : Pairing) (x : Nat × Nat) : Prop := ∃ p ∈ w.live, (p.left, p.right) = x

structure Ok (w : Pairing) : Prop where
  known : ∀ x ∈ w.known, w.Holds x
  env : List.Forall₂ (BindingAlike w.known) w.left w.right

end Pairing

structure Paired (w : Pairing) (s t : CodegenState) : Prop extends w.Ok where
  image : Image.Alike s.functions t.functions
  grows : Array.Grows s.functions w.image
  grows' : Array.Grows t.functions w.image'
  hostCells : t.hostCells = s.hostCells
  names : t.names = s.names
  name : t.function.name = s.function.name
  stack : t.function.stack = s.function.stack
  slots : Slots.Matched w.live s.function.slots t.function.slots
  left : s.function.env = w.left
  right : t.function.env = w.right
  code : ∃ P, Renamed s.functions t.functions s.function.chunk t.function.chunk s.function.slots.count
    t.function.slots.count w.opened w.known P

/-! ## Steps -/

/-- Where `x` succeeds from a state, so does `y` from a related one, and they lead to related results and
states. -/
def Follows {α β : Type} (R : CodegenState → CodegenState → Prop)
    (S : α → β → CodegenState → CodegenState → Prop) (x : Codegen α) (y : Codegen β) : Prop :=
  ∀ ⦃s t : CodegenState⦄, R s t → ∀ ⦃a : α⦄ ⦃s' : CodegenState⦄, x s = .ok a s' →
    ∃ b t', y t = .ok b t' ∧ S a b s' t'

def Steps {α : Type} (w w' : Pairing) (x y : Codegen α) : Prop :=
  Follows (Paired w) (fun a b s t => b = a ∧ Paired w' s t) x y

def Agrees {α : Type} (x y : Codegen α) : Prop := ∀ w, Steps w w x y

variable {α β γ δ : Type} {w w' w'' : Pairing} {kind : Kind} {x : Nat × Nat} {s t : CodegenState} {op : Opcode}
  {rs : List StackEntry} {e : Effect} {i j : Nat}

theorem Follows.bind {R : CodegenState → CodegenState → Prop}
    {S : α → β → CodegenState → CodegenState → Prop} {T : γ → δ → CodegenState → CodegenState → Prop}
    {x : Codegen α} {y : Codegen β} {f : α → Codegen γ} {g : β → Codegen δ} (h : Follows R S x y)
    (hf : ∀ a b, Follows (S a b) T (f a) (g b)) : Follows R T (x >>= f) (y >>= g) := by
  intro s t hr c s' hrun
  obtain ⟨a, s₁, hx, hrun⟩ := bind_eq_ok.1 hrun
  obtain ⟨b, t₁, hy, hS⟩ := h hr hx
  obtain ⟨d, t', hg, hT⟩ := hf a b hS hrun
  exact ⟨d, t', by rw [bind_of_ok hy]; exact hg, hT⟩

namespace Steps

theorem bind {x y : Codegen α} {f g : α → Codegen β} (h : Steps w w' x y)
    (hf : ∀ a, Steps w' w'' (f a) (g a)) : Steps w w'' (x >>= f) (y >>= g) := by
  refine Follows.bind h fun a b s t hr c s' hrun => ?_
  obtain ⟨rfl, hp⟩ := hr
  exact hf b hp hrun

theorem throw (e : CompileError) (y : Codegen α) : Steps w w' (throw e) y :=
  fun _ _ _ _ _ h => (throw_ne_ok h).elim

end Steps

namespace Agrees

variable {x y : Codegen α} {f g : α → Codegen β}

theorem bind (h : Agrees x y) (hf : ∀ a, Agrees (f a) (g a)) :
    Agrees (x >>= f) (y >>= g) := fun w => (h w).bind fun a => hf a w

theorem pure (a : α) : Agrees (pure a) (pure a) := fun w s t hp b s' h => by
  obtain ⟨rfl, rfl⟩ := pure_eq_ok.1 h
  exact ⟨a, t, rfl, rfl, hp⟩

theorem pure_bind {a : α} (h : Agrees (f a) (g a)) : Agrees (Pure.pure a >>= f) (Pure.pure a >>= g) := h

theorem throw (e : CompileError) (y : Codegen α) : Agrees (throw e) y := fun _ => .throw e y

theorem decline (reason : Declined) (y : Codegen α) : Agrees (decline kind reason) y := .throw _ y

theorem fault (f : CodegenFault) (y : Codegen α) : Agrees (fault kind f) y := .throw _ y

theorem ite {c : Prop} [Decidable c] {x' y' : Codegen α} (h : c → Agrees x y) (h' : ¬c → Agrees x' y') :
    Agrees (if c then x else x') (if c then y else y') := by
  split
  · exact h ‹_›
  · exact h' ‹_›

theorem map (f : α → β) (h : Agrees x y) : Agrees (f <$> x) (f <$> y) := by
  intro w s t hp b s' hrun
  obtain ⟨a, hx, rfl⟩ := map_eq_ok.1 hrun
  obtain ⟨_, t', hy, rfl, hp'⟩ := h w hp hx
  exact ⟨_, t', map_eq_ok.2 ⟨_, hy, rfl⟩, rfl, hp'⟩

theorem planned (reason : PlanError → Declined) (p : Except PlanError α) :
    Agrees (planned kind reason p) (Codegen.planned kind reason p) := by
  cases p with
  | ok a => exact .pure a
  | error e => exact .decline _ _

theorem needType (t : Option Ty) : Agrees (needType kind t) (Codegen.needType kind t) := by
  cases t with
  | some t => exact .pure t
  | none => exact .fault _ _

end Agrees

/-! ## The modeled stack -/

theorem Paired.restack (h : Paired w s t) (m : ModelStack) :
    Paired w { s with function := { s.function with stack := m } }
      { t with function := { t.function with stack := m } } :=
  { h with stack := rfl }

theorem agrees_peek (n : Nat) : Agrees (peek kind n) (peek kind n) := by
  intro w s t hp e s' h
  obtain ⟨rfl, -⟩ := peek_eq_ok h
  refine ⟨e, t, ?_, rfl, hp⟩
  -- both look at the same stack
  have hstack := hp.stack
  have hget : ∀ s : CodegenState, (get : Codegen CodegenState) s = .ok s s := fun _ => rfl
  unfold peek at h ⊢
  rw [bind_of_ok (hget _)] at h ⊢
  rw [hstack]
  cases hpeek : s.function.stack.peek n with
  | ok e' =>
    rw [hpeek] at h
    cases h
    rfl
  | error f =>
    rw [hpeek] at h
    cases h

theorem agrees_replaceTop (e : StackEntry) : Agrees (replaceTop kind e) (replaceTop kind e) := by
  refine (agrees_peek 0).bind fun _ w s t hp u s' h => ?_
  obtain rfl := modify_eq_ok.1 h
  refine ⟨u, _, rfl, rfl, ?_⟩
  dsimp only
  rw [hp.stack]
  exact hp.restack _

theorem agrees_snapshot : Agrees snapshot snapshot := by
  intro w s t hp es s' h
  cases h
  exact ⟨_, t, rfl, by rw [hp.stack], hp⟩

theorem agrees_restore (es : Array StackEntry) : Agrees (restore es) (restore es) := by
  intro w s t hp u s' h
  obtain rfl := modify_eq_ok.1 h
  refine ⟨u, _, rfl, rfl, ?_⟩
  dsimp only
  rw [hp.stack]
  exact hp.restack _

/-! ## Instructions -/

theorem emit_eq_of_checks {vs : List Nat} (hlen : vs.length = op.operands.length)
    (heff : Effect.of op vs t.function.chunk.constants = .ok e) (hpush : rs.length = e.push)
    (hfits : oversized? op.operands vs = none) (hpop : e.pop ≤ t.function.stack.depth) :
    emit kind op vs rs t = .ok () { t with function := writeInstruction op vs e.pop rs t.function } := by
  unfold emit checkEmit
  simp only [hlen, heff, hpush, hfits, hpop, ne_eq, not_true_eq_false, if_false, if_true]

theorem Paired.emit {s' : CodegenState} (h : Paired w s t) (kind : Kind) {left : List Nat} (right : List Nat)
    (opened : List (Nat × SlotPairs)) (known : SlotPairs) (he : Emitted op left rs e s s')
    (hlen : right.length = op.operands.length) (hfit : oversized? op.operands right = none)
    (heff : ∀ ks, Effect.of op right ks = Effect.of op left ks)
    (hfits : (⟨op, left, right, s.function.stack.depth, w.known⟩ : PointPair).Fits s.functions t.functions
      s.function.chunk.constants s.function.slots.count t.function.slots.count)
    (hknown : known ⊆ (⟨op, left, right, s.function.stack.depth, w.known⟩ : PointPair).after)
    (hopened : opened = if (⟨op, left, right, s.function.stack.depth, w.known⟩ : PointPair).first.jumps = true
      then (s.function.chunk.code.size, w.known) :: w.opened else w.opened)
    (hok : Pairing.Ok { w with opened := opened, known := known }) :
    ∃ t', Codegen.emit kind op right rs t = .ok () t' ∧ Paired { w with opened := opened, known := known } s' t' := by
  obtain ⟨P, hP⟩ := h.code
  have hdepth : t.function.stack.depth = s.function.stack.depth := by rw [h.stack]
  refine ⟨_, emit_eq_of_checks hlen (by rw [heff, hP.constants]; exact he.effect) he.push hfit
    (by rw [hdepth]; exact he.pop), ?_⟩
  rw [he.eq]
  exact
    { hok, h with
      stack := by simp only [writeInstruction, h.stack]
      code := by
        refine ⟨putPair P s.function.chunk.code.size ⟨op, left, right, s.function.stack.depth, w.known⟩, ?_⟩
        simp only [writeInstruction, hdepth]
        exact hP.write (p := ⟨op, left, right, s.function.stack.depth, w.known⟩) he.length hlen he.fits hfit
          rfl hfits hknown hopened }

/-- Instructions whose operands are no slots and no functions, and that do not jump. -/
def isUniform : Opcode → Bool
  | .loadLocal | .storeLocal | .makeCell | .loadCell | .storeCell | .closure | .jump | .jumpIfFalse => false
  | _ => true

theorem agrees_emit (hop : isUniform op = true) (vs : List Nat) (rs : List StackEntry) :
    Agrees (emit kind op vs rs) (emit kind op vs rs) := by
  intro w s t hp u s' h
  obtain ⟨e, he⟩ := emit_eq_ok h
  obtain ⟨t', ht, hp'⟩ := hp.emit kind vs w.opened w.known he he.length he.fits
    (fun _ => rfl) (by cases op <;> first | rfl | cases hop) (by
      cases op <;> first | exact List.Subset.refl _ | cases hop) (by cases op <;> first | rfl | cases hop)
    hp.toOk
  exact ⟨(), t', ht, rfl, hp'⟩

theorem Paired.right_fits (h : Paired w s t) (hx : w.Holds x) :
    x.1 < s.function.slots.count ∧ x.2 < t.function.slots.count ∧ oversized? [.one] [x.2] = none := by
  obtain ⟨p, hp, rfl⟩ := hx
  have hlt := h.slots.right_lt hp
  have hfewer := h.slots.fewer
  have hlimit := h.slots.le_limit
  refine ⟨h.slots.left_lt p hp, hlt, ?_⟩
  simp only [oversized?]
  rw [if_pos (by simp only [Slots.limit] at hlimit; omega)]

def readsSlot : Opcode → Bool
  | .loadLocal | .loadCell | .storeCell => true
  | _ => false

theorem steps_read (hop : readsSlot op = true) (hij : (i, j) ∈ w.known) (rs : List StackEntry) :
    Steps w w (emit kind op [i] rs) (emit kind op [j] rs) := by
  intro s t hp u s' h
  obtain ⟨e, he⟩ := emit_eq_ok h
  obtain ⟨-, -, hfit⟩ := hp.right_fits (hp.known _ hij)
  obtain ⟨t', ht, hp'⟩ := hp.emit kind [j] w.opened w.known he
    (by cases op <;> first | rfl | cases hop) (by cases op <;> first | exact hfit | cases hop)
    (fun _ => by cases op <;> first | rfl | cases hop) (by cases op <;> first | exact hij | cases hop)
    (by cases op <;> first | exact List.Subset.refl _ | cases hop)
    (by cases op <;> first | rfl | cases hop) hp.toOk
  exact ⟨(), t', ht, rfl, hp'⟩

theorem Paired.holds_unique (h : Paired w s t) {y : Nat × Nat} (hx : w.Holds x) (hy : w.Holds y) :
    x.1 = y.1 ↔ x.2 = y.2 := by
  obtain ⟨p, hp, rfl⟩ := hx
  obtain ⟨q, hq, rfl⟩ := hy
  exact h.slots.unique p hp q hq

theorem Paired.subset_learn (h : Paired w s t) (hij : w.Holds (i, j)) : (i, j) :: w.known ⊆ w.known.learn i j := by
  intro x hx
  rcases mem_cons.1 hx with rfl | hx
  · exact SlotPairs.mem_learn (.inl rfl) ⟨fun _ => rfl, fun _ => rfl⟩
  · exact SlotPairs.mem_learn (.inr hx) (h.holds_unique (h.known x hx) hij)

theorem BindingAlike.mono {known known' : SlotPairs} {x y : Nat × Binding} (h : BindingAlike known x y)
    (hsub : known ⊆ known') : BindingAlike known' x y := by
  refine ⟨h.id, h.place, h.number, ?_⟩
  have hindex := h.index
  cases hp : x.2.place with
  | slot | slotCell =>
    simp only [hp] at hindex
    exact hsub hindex
  | free | freeCell => simpa only [hp] using hindex

def Pairing.learn (w : Pairing) (i j : Nat) : Pairing := { w with known := (i, j) :: w.known }

theorem Pairing.Ok.learn (h : w.Ok) (hij : w.Holds (i, j)) : (w.learn i j).Ok where
  known := forall_mem_cons.2 ⟨hij, h.known⟩
  env := h.env.imp fun _ _ hx => hx.mono (subset_cons_self _ _)

theorem steps_storeLocal (hij : w.Holds (i, j)) :
    Steps w (w.learn i j) (emit kind .storeLocal [i] []) (emit kind .storeLocal [j] []) := by
  intro s t hp u s' h
  obtain ⟨e, he⟩ := emit_eq_ok h
  obtain ⟨hi, hj, hfit⟩ := hp.right_fits hij
  obtain ⟨t', ht, hp'⟩ := hp.emit kind [j] w.opened ((i, j) :: w.known) he rfl hfit (fun _ => rfl) ⟨hi, hj⟩
    (hp.subset_learn hij) rfl (hp.toOk.learn hij)
  exact ⟨(), t', ht, rfl, hp'⟩

theorem steps_storeKnown (hij : (i, j) ∈ w.known) :
    Steps w w (emit kind .storeLocal [i] []) (emit kind .storeLocal [j] []) := by
  intro s t hp u s' h
  obtain ⟨e, he⟩ := emit_eq_ok h
  have hholds := hp.known _ hij
  obtain ⟨hi, hj, hfit⟩ := hp.right_fits hholds
  obtain ⟨t', ht, hp'⟩ := hp.emit kind [j] w.opened w.known he rfl
    hfit (fun _ => rfl) ⟨hi, hj⟩
    (List.Subset.trans (subset_cons_self _ _) (hp.subset_learn hholds)) rfl hp.toOk
  exact ⟨(), t', ht, rfl, hp'⟩

theorem steps_makeCell (hij : (i, j) ∈ w.known) :
    Steps w w (emit kind .makeCell [i] []) (emit kind .makeCell [j] []) := by
  intro s t hp u s' h
  obtain ⟨e, he⟩ := emit_eq_ok h
  have hholds := hp.known _ hij
  obtain ⟨-, -, hfit⟩ := hp.right_fits hholds
  obtain ⟨t', ht, hp'⟩ := hp.emit kind [j] w.opened w.known he rfl
    hfit (fun _ => rfl) hij
    (List.Subset.trans (subset_cons_self _ _) (hp.subset_learn hholds)) rfl hp.toOk
  exact ⟨(), t', ht, rfl, hp'⟩

/-! ## Constants -/

theorem Paired.constants (h : Paired w s t) : t.function.chunk.constants = s.function.chunk.constants := by
  obtain ⟨P, hP⟩ := h.code
  exact hP.constants

theorem agrees_constant (k : Constant) : Agrees (constant kind k) (constant kind k) := by
  intro w s t hp i s' h
  have hadd : ∀ c d : Chunk, d.constants = c.constants →
      (d.addConstant k).1 = (c.addConstant k).1 ∧
        (d.addConstant k).2.constants = (c.addConstant k).2.constants := by
    intro c d hcd
    unfold Chunk.addConstant
    rw [hcd]
    split
    · exact ⟨rfl, hcd⟩
    · exact ⟨rfl, rfl⟩
  obtain ⟨hfst, hsnd⟩ := hadd _ _ hp.constants
  obtain ⟨ks, hks, -, hor⟩ := addConstant_spec s.function.chunk k
  obtain ⟨ks', hks', -, -⟩ := addConstant_spec t.function.chunk k
  obtain ⟨j, s₁, hmod, hlimit⟩ := bind_eq_ok.1 h
  obtain ⟨rfl, rfl⟩ := modifyGet_eq_ok.1 hmod
  rcases ite_eq_ok.1 hlimit with ⟨-, hdecline⟩ | ⟨hle, hpure⟩
  · exact (throw_ne_ok hdecline).elim
  obtain ⟨rfl, rfl⟩ := pure_eq_ok.1 hpure
  refine ⟨(t.function.chunk.addConstant k).1,
    { t with function := { t.function with chunk := (t.function.chunk.addConstant k).2 } }, ?_, hfst, ?_⟩
  · refine bind_eq_ok.2 ⟨_, _, modifyGet_eq_ok.2 ⟨rfl, rfl⟩, ?_⟩
    dsimp only at hle ⊢
    rw [if_neg (by rw [hfst]; exact hle)]
    rfl
  · obtain ⟨P, hP⟩ := hp.code
    have hgrows : Array.Grows ks s.function.chunk.constants := by
      rcases hor with rfl | rfl
      · exact .refl _
      · exact Array.grows_push _ _
    have hsame : ks' = ks := by
      rw [hks, hks'] at hsnd
      exact hsnd
    dsimp only
    rw [hks, hks', hsame]
    exact { hp with
      code := ⟨P, hP.change (.refl _) (.refl _) hgrows (Nat.le_refl _) (Nat.le_refl _) (List.Subset.refl _)⟩ }

theorem agrees_emitConstant (hop : isUniform op = true) (k : Constant) (rs : List StackEntry) :
    Agrees (do emit kind op [← constant kind k] rs : Codegen Unit)
      (do emit kind op [← constant kind k] rs) :=
  (agrees_constant k).bind fun i => agrees_emit hop [i] rs

/-! ## Jumps -/

theorem steps_emitJump (hop : op = .jump ∨ op = .jumpIfFalse) :
    Follows (Paired w) (fun a b s t => b = a ∧ ∃ o, a = o + 1 ∧
      Paired { w with opened := (o, w.known) :: w.opened } s t) (emitJump kind op) (emitJump kind op) := by
  intro s t hp o s' h
  obtain ⟨rfl, e, he⟩ := emitJump_eq_ok h
  have hjump : (⟨op, [65535], [65535], s.function.stack.depth, w.known⟩ : PointPair).first.jumps = true := by
    rcases hop with rfl | rfl <;> rfl
  obtain ⟨t', ht, hp'⟩ := hp.emit kind [65535] ((s.function.chunk.code.size, w.known) :: w.opened) w.known he
    he.length he.fits (fun _ => rfl) (PointPair.fits_of_jumps hjump rfl)
    (by rw [PointPair.after_of_jumps hjump]; exact List.Subset.refl _) (if_pos hjump).symm
    ⟨hp.known, hp.env⟩
  obtain ⟨P, hP⟩ := hp.code
  refine ⟨_, t', ?_, rfl, _, rfl, hp'⟩
  refine bind_eq_ok.2 ⟨_, t, rfl, bind_eq_ok.2 ⟨(), t', ht, ?_⟩⟩
  rw [hP.size]
  rfl

theorem steps_patchJump {o : Nat} {facts : SlotPairs} {opened : List (Nat × SlotPairs)} (hsub : w.known ⊆ facts) :
    Steps { w with opened := (o, facts) :: opened } { w with opened := opened } (patchJump kind (o + 1))
      (patchJump kind (o + 1)) := by
  intro s t hp u s' h
  obtain ⟨hle, rfl⟩ := patchJump_eq_ok h
  obtain ⟨P, hP⟩ := hp.code
  have hpatched := hP.patch hsub hle
  refine ⟨(), { t with function := { t.function with
    chunk := t.function.chunk.setDistance (o + 1) (s.function.chunk.code.size - (o + 1) - 2) } }, ?_, rfl, ?_⟩
  · refine bind_eq_ok.2 ⟨_, t, rfl, ?_⟩
    rw [hP.size]
    dsimp only
    rw [if_neg (by simpa [maxJump] using hle)]
    rfl
  · have hok : Pairing.Ok { w with opened := opened } := ⟨hp.known, hp.env⟩
    exact { hok, hp with code := hpatched }

end Codegen

end TreeMachine
