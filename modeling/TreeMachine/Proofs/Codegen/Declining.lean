import TreeMachine.Proofs.Codegen.Sequence

/-!
# Code that declines

Where the compilation of a piece of code fails, it declines the tree; it never reports that its own bookkeeping
broke. Whether a step can report a fault depends on what the steps before it did to the modeled stack and to the open
scopes, and that is what `Turned` tells of them if they succeed. So both are said at once.

* **`Runs strict x s Q`**: `x` ends with `Q` if it succeeds from `s`; where `strict` holds, it declines if it fails.
* **`Yields r P t x`** says so of the code of an expression of type `t`, in all scopes with the property `P`: it leaves
  a value of the type, and declines where it fails.

The steps that the code of a node is made of are described here: instructions, constants and code that borrows a slot.
-/

open List

namespace TreeMachine.Codegen

variable {r : Bool} {strict : Prop} {kind : Kind} {s s' : CodegenState} {α β : Type}
  {base before after rs : List StackEntry} {e : StackEntry}

def Declines (x : Codegen α) (s : CodegenState) : Prop :=
  ∀ ⦃e : CompileError⦄ ⦃s' : CodegenState⦄, x s = .error e s' → e.isUnsupported = true

/-- The step ends with `Q` if it succeeds from this state. Where `strict` holds, it declines if it fails. -/
def Runs (strict : Prop) (x : Codegen α) (s : CodegenState) (Q : α → CodegenState → Prop) : Prop :=
  match x s with
  | .ok a s' => Q a s'
  | .error e _ => strict → e.isUnsupported = true

namespace Runs

variable {x y : Codegen α} {f : α → Codegen β} {a : α} {Q Q' : α → CodegenState → Prop} {R : β → CodegenState → Prop}

theorem of_ok (h : x s = .ok a s') (hQ : Q a s') : Runs strict x s Q := by
  rw [Runs, h]
  exact hQ

protected theorem intro (hok : ∀ {a : α} {s' : CodegenState}, x s = .ok a s' → Q a s')
    (hd : strict → Declines x s) : Runs strict x s Q := by
  cases hx : x s with
  | ok a s' => exact of_ok hx (hok hx)
  | error e s' =>
    rw [Runs, hx]
    exact fun h => hd h hx

theorem ok (h : Runs strict x s Q) (hx : x s = .ok a s') : Q a s' := by
  rw [Runs, hx] at h
  exact h

theorem declines (h : Runs strict x s Q) (hs : strict) : Declines x s := fun e s' hx => by
  rw [Runs, hx] at h
  exact h hs

protected theorem pure (h : Q a s) : Runs strict (pure a) s Q := h

theorem decline {reason : Declined} : Runs strict (decline kind reason : Codegen α) s Q := fun _ => rfl

theorem imp (h : Runs strict x s Q) (hQ : ∀ {a : α} {s' : CodegenState}, Q a s' → Q' a s') : Runs strict x s Q' :=
  .intro (fun hx => hQ (h.ok hx)) h.declines

theorem bind_of_ok (hx : x s = .ok a s') (hf : Runs strict (f a) s' R) : Runs strict (x >>= f) s R := by
  rw [Runs, EStateM.bind_of_ok hx]
  exact hf

theorem bind (hx : Runs strict x s Q) (hf : ∀ {a : α} {t : CodegenState}, Q a t → Runs strict (f a) t R) :
    Runs strict (x >>= f) s R := by
  cases hrun : x s with
  | ok a t => exact bind_of_ok hrun (hf (hx.ok hrun))
  | error e t =>
    rw [Runs, EStateM.bind_of_error hrun]
    exact fun hs => hx.declines hs hrun

theorem ite {c : Prop} [Decidable c] (hx : c → Runs strict x s Q) (hy : ¬c → Runs strict y s Q) :
    Runs strict (if c then x else y) s Q := by
  split
  · exact hx ‹_›
  · exact hy ‹_›

theorem assoc {γ : Type} {g : β → Codegen γ} {R : γ → CodegenState → Prop} (h : Runs strict (x >>= f >>= g) s R) :
    Runs strict (x >>= fun a => f a >>= g) s R := by
  rwa [bind_assoc] at h

theorem get_bind {f : CodegenState → Codegen β} (h : Runs strict (f s) s R) : Runs strict (get >>= f) s R := h

theorem modify_bind {g : CodegenState → CodegenState} {f : Unit → Codegen β} (h : Runs strict (f ()) (g s) R) :
    Runs strict (modify g >>= f) s R := h

end Runs

theorem Declines.of_runs {x : Codegen α} (h : Runs True x s fun _ _ => True) : Declines x s := h.declines trivial

/-! ## The modeled stack -/

theorem peek_top {e' : StackEntry} (hb : entries s = base ++ [e]) (h : peek kind 0 s = .ok e' s') :
    s = s' ∧ e = e' := by
  obtain ⟨hs, base', hb'⟩ := peek_top_eq_ok h
  obtain ⟨-, he⟩ := append_inj' (hb.symm.trans hb') rfl
  exact ⟨hs, singleton_inj.1 he⟩

theorem exists_peek (kind : Kind) {n : Nat} (h : n < (entries s).length) : ∃ e, peek kind n s = .ok e s := by
  have hsize : n < s.function.stack.entries.size := by simpa [entries] using h
  have hpeek : s.function.stack.peek n =
      .ok (s.function.stack.entries.getD (s.function.stack.entries.size - 1 - n) default) := if_pos hsize
  refine ⟨s.function.stack.entries.getD (s.function.stack.entries.size - 1 - n) default, ?_⟩
  refine EStateM.bind_eq_ok.2 ⟨s, s, rfl, ?_⟩
  rw [hpeek]
  rfl

section

variable {f : StackEntry → Codegen β} {R : β → CodegenState → Prop}

theorem Runs.peek {n : Nat} (h : n < (entries s).length) (hf : ∀ {e : StackEntry}, Runs strict (f e) s R) :
    Runs strict (peek kind n >>= f) s R := by
  obtain ⟨e, he⟩ := exists_peek kind h
  exact .bind_of_ok he hf

theorem Runs.peekTop (hb : entries s = base ++ [e]) (hf : Runs strict (f e) s R) :
    Runs strict (Codegen.peek kind 0 >>= f) s R := by
  obtain ⟨e', he⟩ := exists_peek kind (s := s) (n := 0) (by simp [hb])
  obtain ⟨-, rfl⟩ := peek_top hb he
  exact .bind_of_ok he hf

end

theorem turned_replaceTop {e' : StackEntry} {u : Unit} (h : replaceTop kind e' s = .ok u s')
    (hok : s.function.slots.Ok) : Turned r [e] [e'] s s' := by
  obtain ⟨rfl, base, old, hb, hb'⟩ := replaceTop_eq_ok h
  refine ⟨⟨hok, rfl, .refl _, .refl _, fun base' hbase => ?_⟩, fun {caps opened known} hg => ?_⟩
  · obtain ⟨rfl, -⟩ := append_inj' (hbase.symm.trans hb) rfl
    exact hb'
  · obtain ⟨G, hG⟩ := hg.sound
    have hdepth : ((s.function.stack.drop 1).push e').depth = s.function.stack.depth := by
      have hlen := congrArg length hb
      have hlen' := congrArg length hb'
      simp only [length_append, length_cons, length_nil, ← depth_eq] at hlen hlen'
      exact hlen'.trans hlen.symm
    have hmax : s.function.stack.max ≤ ((s.function.stack.drop 1).push e').max :=
      Nat.le_max_left _ _
    refine ⟨hg.image, hg.depths, G, hG.change rfl rfl (.refl _) (.refl _) (.refl _) hG.slots
      (fun _ => hdepth) hmax ?_ (List.Subset.refl _) hG.known hG.env⟩
    exact Nat.le_trans (Nat.le_of_eq hdepth) (Nat.le_trans hG.max hmax)

theorem runs_replaceTop {e' : StackEntry} (hok : s.function.slots.Ok) (hb : entries s = base ++ [e]) :
    Runs strict (replaceTop kind e') s fun _ s' => Turned r [e] [e'] s s' :=
  .intro (fun h => turned_replaceTop h hok) fun _ => .of_runs (.peekTop hb trivial)

/-! ## Instructions -/

theorem declines_emit {op : Opcode} {vs : List Nat} (hb : entries s = base ++ before)
    (hlen : vs.length = op.operands.length)
    (heff : Effect.of op vs s.function.chunk.constants = .ok ⟨before.length, rs.length⟩) :
    Declines (emit kind op vs rs) s := by
  have hdepth : before.length ≤ s.function.stack.depth := by
    rw [depth_eq, hb, length_append]
    exact Nat.le_add_left _ _
  intro err t he
  unfold emit checkEmit at he
  simp only [hlen, heff, hdepth, ne_eq, not_true_eq_false, if_false, if_true] at he
  -- only the width of an operand is left to fail at
  cases hfits : oversized? op.operands vs with
  | none =>
    simp only [hfits] at he
    cases he
  | some v =>
    simp only [hfits] at he
    cases he
    rfl

theorem runs_emit {op : Opcode} {vs : List Nat} (hok : s.function.slots.Ok) (hb : entries s = base ++ before)
    (hop : isOrdinary op = true) (hlen : vs.length = op.operands.length)
    (heff : Effect.of op vs s.function.chunk.constants = .ok ⟨before.length, rs.length⟩)
    (hv : ∀ {caps opened known e}, Good r caps opened known true s →
      (nextPoint s.function known op vs e).Valid s.functions s.function.chunk.constants s.function.slots.mode caps) :
    Runs strict (emit kind op vs rs) s fun _ s' => Turned r before rs s s' :=
  .intro (fun h => turned_emit h hok hop (fun he => by rw [heff] at he; cases he; rfl) hv)
    fun _ => declines_emit hb hlen heff

theorem runs_plain {op : Opcode} (hok : s.function.slots.Ok) (hb : entries s = base ++ before)
    (hop : isOrdinary op = true) (hlen : op.operands = [])
    (heff : Effect.of op [] #[] = .ok ⟨before.length, rs.length⟩) :
    Runs strict (emit kind op [] rs) s fun _ s' => Turned r before rs s s' := by
  have hconst : Effect.of op [] s.function.chunk.constants = Effect.of op [] #[] := by cases op <;> rfl
  exact runs_emit hok hb hop (by rw [hlen]; rfl) (hconst.trans heff) fun _ => by cases op <;> trivial

theorem runs_constant {k : Constant} (hok : s.function.slots.Ok) :
    Runs strict (constant kind k) s fun i s' => Turned r [] [] s s' ∧ s'.function.chunk.constants[i]? = some k :=
  .intro (fun h => turned_constant h hok) fun _ =>
    .of_runs (.bind_of_ok rfl (.ite (fun _ => .decline) fun _ => trivial))

theorem runs_emitConstant {k : Constant} {op : Opcode} (hok : s.function.slots.Ok) (hb : entries s = base ++ before)
    (hop : isOrdinary op = true) (hlen : op.operands.length = 1)
    (heff : ∀ {ks : Array Constant} {i : Nat}, ks[i]? = some k →
      Effect.of op [i] ks = .ok ⟨before.length, rs.length⟩)
    (hv : ∀ {image ks mode caps known d i e}, ks[i]? = some k →
      Point.Valid image ks mode caps ⟨op, [i], e, d, known⟩) :
    Runs strict (do emit kind op [← constant kind k] rs : Codegen Unit) s fun _ s' => Turned r before rs s s' := by
  refine (runs_constant (r := r) hok).bind fun {i t} ⟨ht, hk⟩ => ?_
  have hb' : entries t = base ++ before := by rw [ht.top, append_nil, hb]
  have hkept : Turned r before before s t := by simpa using ht.frame before
  exact .imp (runs_emit ht.ok hb' hop hlen.symm (heff hk) fun _ => hv hk) hkept.trans

/-! ## Slots -/

theorem runs_allocate {t : Option Ty} {name : String} {m : CaptureMode} {scope : Int}
    (h : s.function.slots.isOpen scope = true) :
    Runs strict (allocate kind t name m scope) s fun i s' => ∃ b, s.function.slots.Allocated t m scope i b ∧
      s' = { s with function := { s.function with slots := b } } := by
  refine .intro (fun h => (allocate_eq_ok h).imp fun _ h => h.imp_left Slots.allocated_of_allocate) fun _ =>
    .of_runs (.get_bind ?_)
  have hmeaning : ∀ e, s.function.slots.allocate t name m scope = .error e → e = .tooMany := by
    intro e he
    unfold Slots.allocate at he
    rw [h] at he
    simp only [Bool.not_true, Bool.false_eq_true, if_false] at he
    split at he
    · cases he
    · split at he
      · cases he
        rfl
      · cases he
  cases ha : s.function.slots.allocate t name m scope with
  | ok p => exact trivial
  | error e =>
    rw [hmeaning e ha]
    exact .decline

theorem runs_release {scope : Int} {rest : List Int} (h : s.function.slots.inner = scope :: rest) :
    Runs strict (release kind scope) s fun _ s' => ∃ b, s.function.slots.release scope = .ok b ∧
      s' = { s with function := { s.function with slots := b } } := by
  refine .intro release_eq_ok fun _ => .of_runs (.get_bind ?_)
  obtain ⟨b, hb⟩ : ∃ b, s.function.slots.release scope = .ok b := by
    unfold Slots.release
    rw [h]
    exact ⟨_, if_pos rfl⟩
  simp only [hb]
  exact trivial

structure Ready (strict : Prop) (P : Bindings → Prop) (s : CodegenState) : Prop where
  ok : s.function.slots.Ok
  env : strict → P s.function.env

def Borrows (slot : Nat) (s : CodegenState) : Prop :=
  ∃ sl, s.function.slots.slots[slot]? = some sl ∧ sl.live = true ∧ sl.capture ≠ .byReference

variable {P : Bindings → Prop} {slot : Nat}

theorem Moved.ready (h : Moved before after s s') (hs : Ready strict P s) : Ready strict P s' :=
  ⟨h.ok, fun hstrict => h.env ▸ hs.env hstrict⟩

theorem Moved.borrows (h : Moved before after s s') (hs : Borrows slot s) : Borrows slot s' := by
  obtain ⟨sl, hslot, hl, hc⟩ := hs
  exact ⟨sl, (h.slots.live hl).2 hslot, hl, hc⟩

theorem runs_storeLocal (hok : s.function.slots.Ok) (hb : entries s = base ++ [e]) (hs : Borrows slot s) :
    Runs strict (emit kind .storeLocal [slot] []) s fun _ s' => Turned r [e] [] s s' := by
  obtain ⟨sl, hslot, -, hc⟩ := hs
  exact .intro (fun h => turned_storeLocal h hok hslot hc) fun _ => declines_emit hb rfl rfl

theorem runs_loadLocal (hok : s.function.slots.Ok) (hs : Borrows slot s) :
    Runs strict (emit kind .loadLocal [slot] [e]) s fun _ s' => Turned r [] [e] s s' := by
  obtain ⟨sl, hslot, -, hc⟩ := hs
  exact .intro (fun h => turned_loadLocal h hok hslot hc) fun _ => declines_emit (append_nil _).symm rfl rfl

/-- **Borrowing a slot.** Code that may use a slot of a type does what it does, and the slot is given back: the scope
is the innermost one again at the end. -/
theorem runs_withTemp {t : Ty} {x : Nat → Codegen Unit} (hs : Ready strict P s)
    (hx : ∀ {slot : Nat} {s₁ : CodegenState}, Ready strict P s₁ → entries s₁ = entries s → Borrows slot s₁ →
      Runs strict (x slot) s₁ fun _ s₂ => Turned r before after s₁ s₂) :
    Runs strict (withTemp kind t x) s fun _ s' => Turned r before after s s' := by
  refine Runs.bind_of_ok (x := openScope) rfl ((runs_allocate ?_).bind fun {slot s₂} hb => ?_)
  · simp [Slots.isOpen]
  obtain ⟨b, hb, hs₂⟩ := hb
  have hb₁ := hs.ok.openScope
  have hb₂ := hb₁.allocated hb
  have hready : Ready strict P s₂ := hs₂ ▸ ⟨hb₂, hs.env⟩
  have hborrows : Borrows slot s₂ := hs₂ ▸ ⟨_, hb.slot, rfl, by simp⟩
  refine (hx hready (hs₂ ▸ rfl) hborrows).bind fun {_ s₃} ht => ?_
  subst hs₂
  have hwithin := ((Slots.Within.openScope s.function.slots).allocated hb).restored ht.slots
  refine (runs_release hwithin.inner).imp fun {_ s₄} hc => ?_
  obtain ⟨c, hc, rfl⟩ := hc
  have hrestored := hwithin.release hs.ok hc
  refine
    { ok := ht.ok.release hc
      env := ht.env
      slots := hrestored
      functions := ht.functions
      entries := ht.entries
      good := fun {caps opened known} hg => ?_ }
  have hg₁ := hg.slots (Slots.Within.openScope s.function.slots).toKept hb₁ fun _ hs => hs
  have hg₂ := hg₁.slots hb.kept hb₂ fun hl hs => hb.live hs hl
  have hclosed := hg.close (ht.good hg₂) (List.Subset.refl _) hc hrestored
  rw [← ht.env] at hclosed
  exact hclosed

/-! ## Code of expressions -/

def Yields (r : Bool) (P : Bindings → Prop) (t : Option Ty) (x : Codegen Unit) : Prop :=
  ∀ ⦃strict : Prop⦄ ⦃s : CodegenState⦄, Ready strict P s →
    Runs strict x s fun _ s' => ∃ es, EntriesOf t es ∧ Turned r [] es s s'

def YieldsEach (r : Bool) (P : Bindings → Prop) (ts : List (Option Ty)) (x : Codegen Unit) : Prop :=
  ∀ ⦃strict : Prop⦄ ⦃s : CodegenState⦄, Ready strict P s →
    Runs strict x s fun _ s' => ∃ es : List StackEntry, es.map (·.type) = ts ∧ Turned r [] es s s'

section

variable {t : Option Ty} {x : Codegen Unit} {f : Unit → Codegen β} {R : β → CodegenState → Prop}

theorem Yields.then {t : Ty} (hx : Yields r P (some t) x) (hs : Ready strict P s)
    (hf : ∀ {a : Bool} {s' : CodegenState}, Turned r [] [⟨some t, a⟩] s s' → Ready strict P s' →
      Runs strict (f ()) s' R) : Runs strict (x >>= f) s R := by
  refine (hx hs).bind fun {_ s'} ht => ?_
  obtain ⟨es, ⟨a, rfl⟩, ht⟩ := ht
  exact hf ht (ht.ready hs)

theorem YieldsEach.then {ts : List (Option Ty)} (hx : YieldsEach r P ts x) (hs : Ready strict P s)
    (hf : ∀ {es : List StackEntry} {s' : CodegenState}, es.map (·.type) = ts → Turned r [] es s s' →
      Ready strict P s' → Runs strict (f ()) s' R) : Runs strict (x >>= f) s R := by
  refine (hx hs).bind fun {_ s'} ht => ?_
  obtain ⟨es, hes, ht⟩ := ht
  exact hf hes ht (ht.ready hs)

theorem Runs.leaves {s₁ : CodegenState} (h : Runs strict x s₁ fun _ s' => Turned r before after s₁ s')
    (ht : Turned r [] before s s₁) (hes : EntriesOf t after) :
    Runs strict x s₁ fun _ s' => ∃ es, EntriesOf t es ∧ Turned r [] es s s' :=
  h.imp fun h => ⟨after, hes, ht.trans h⟩

end

end TreeMachine.Codegen
