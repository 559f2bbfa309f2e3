import TreeMachine.Proofs.Codegen.Conversion
import TreeMachine.Proofs.Machine.Passage

/-!
# Running the code of a conversion

The steps of a plan are instructions that work on the top of the operand stack. `ConversionStep.act` says what
each one does to a value, and `stretch_convert` that a frame that runs through the code of a plan does just
that: one step behind the other, whatever function the code stands in.
-/

namespace TreeMachine

open TreeMachine.EStateM Exec Fetch

namespace ConversionStep

def number (U : Universe) (t : Ty) : Nat := ((U.primitive? t).map Primitive.number).getD 0

/-- What a step does to a value. A box takes the storage that it is given, or a copy of it. -/
def act (U : Universe) (copies : Bool) : ConversionStep → Value → Exec Value
  | box _, v => (if copies then clone v else pure v) >>= fun w => step (Store.wrap w)
  | unbox t, v => Machine.unbox (some t) v
  | cast t, v => do
    checkReference U v (some t)
    return v
  | retag t, v => return { v with type := some t }
  | widen t, v | narrow t, v => return Machine.convert U (number U t) v

def actAll (U : Universe) (copies : Bool) : List ConversionStep → Value → Exec Value
  | [] => pure
  | p :: ps => fun v => p.act U copies v >>= actAll U copies ps

end ConversionStep

namespace Codegen

open Machine

variable {cg : Codegen.Context} {kind : Kind} {s s' s'' : CodegenState} {u : Unit} {base : List StackEntry}
  {e e' e'' : StackEntry} {ctx : Machine.Context} {g g' : Value → Exec Value} {op : Opcode} {target : Ty}
  {step : ConversionStep}

structure Stretch (ctx : Machine.Context) (base : List StackEntry) (e' : StackEntry) (g : Value → Exec Value)
    (s s' : CodegenState) : Prop where
  grown : Grown s s'
  entries : Codegen.entries s' = base ++ [e']
  turns : ∀ c : Chunk, c.Holds s s' → s.function.chunk.DepthsCover →
    ∃ k, Turns ctx c (base.length + 1) (offset s) (offset s') k g

theorem Stretch.refl (ctx : Machine.Context) (hb : Codegen.entries s = base ++ [e]) : Stretch ctx base e pure s s where
  grown := .refl s
  entries := hb
  turns c _ _ := ⟨0, Turns.refl ctx c _ _⟩

theorem Stretch.trans (h : Stretch ctx base e' g s s') (h' : Stretch ctx base e'' g' s' s'') :
    Stretch ctx base e'' (fun v => g v >>= g') s s'' where
  grown := h.grown.trans h'.grown
  entries := h'.entries
  turns c hc hcover := by
    obtain ⟨k, hk⟩ := h.turns c (hc.left h'.grown) hcover
    obtain ⟨k', hk'⟩ := h'.turns c (hc.right h.grown) (h.grown.cover hcover)
    exact ⟨k + k', hk.trans hk'⟩

theorem stretch_emit {vs : List Nat} {i : Chunk → Instruction} (h : emit kind op vs [e'] s = .ok u s')
    (hb : entries s = base ++ [e]) (heffect : ∀ ks, Effect.of op vs ks = .ok ⟨1, 1⟩)
    (hi : ∀ c : Chunk, Array.Grows c.constants s.function.chunk.constants →
      c.operandsAt? op.operands (offset s + 1) = some vs → Instruction.operands c op (offset s + 1) = .ok (i c, offset s + op.size))
    (hret : ∀ c, (i c).isReturn = false)
    (hexec : ∀ (c : Chunk) (f : Frame) (rest : Array Value) (v : Value) (st : Store), f.stack = rest.push v →
      execute ctx f (i c) st = (do return { f with stack := rest.push (← g v) } : Exec Frame) st) :
    Stretch ctx base e' g s s' := by
  obtain ⟨eff, hemit⟩ := emit_eq_ok h
  obtain rfl : eff = ⟨1, 1⟩ := Except.ok.inj (hemit.effect.symm.trans (heffect _))
  refine ⟨hemit.grown, hemit.entries hb rfl, fun c hc hcover => ⟨1, ?_⟩⟩
  have hat := hemit.at hc hcover
  have hdepth : s.function.stack.depth = base.length + 1 := by rw [depth_eq, hb]; simp
  rw [hemit.offset]
  refine turns_one hat.byte ?_ (hret c) (hdepth ▸ hat.depth) (hexec c)
  rw [Instruction.fetch, Opcode.ofByte?_byte]
  exact hi c (hc.constants.trans hemit.grown.constants) hat.operands

theorem stretch_emitType {t : Ty} {i : Instruction}
    (h : (do emit kind op [← constant kind (.type t)] [e'] : Codegen Unit) s = .ok u s')
    (hb : entries s = base ++ [e]) (hw : op.operands = [.two])
    (heffect : ∀ j ks, Effect.of op [j] ks = .ok ⟨1, 1⟩)
    (hi : ∀ (c : Chunk) (o : Nat), type c o = .ok (some t, o + 2) → Instruction.operands c op o = .ok (i, o + 2))
    (hret : i.isReturn = false)
    (hexec : ∀ (f : Frame) (rest : Array Value) (v : Value) (st : Store), f.stack = rest.push v →
      execute ctx f i st = (do return { f with stack := rest.push (← g v) } : Exec Frame) st) :
    Stretch ctx base e' g s s' := by
  obtain ⟨j, s₁, hconst, hemit⟩ := bind_eq_ok.1 h
  have hgrown := grown_constant hconst
  obtain ⟨ks, hs₁, hj, -⟩ := constant_eq_ok hconst
  have hb₁ : entries s₁ = base ++ [e] := by rw [hs₁]; exact hb
  have hj : s₁.function.chunk.constants[j]? = some (.type t) := by rw [hs₁]; exact hj
  have hoffset : offset s₁ = offset s := by rw [hs₁]
  have hstretch : Stretch ctx base e' g s₁ s' := by
    refine stretch_emit (i := fun _ => i) hemit hb₁ (heffect j) ?_ (fun _ => hret) fun _ => hexec
    intro c hgrows hoperands
    have hsize : op.size = 3 := by rw [Opcode.size_eq, hw]; rfl
    rw [hw] at hoperands
    rw [hsize]
    exact hi c _ (type_eq_ok (two_eq_some hoperands) (hgrows _ _ hj))
  refine ⟨hgrown.trans hstretch.grown, hstretch.entries, fun c hc hcover => ?_⟩
  rw [← hoffset]
  exact hstretch.turns c (hc.right hgrown) (hgrown.cover hcover)

def copies (U : Universe) (e : StackEntry) : Bool := e.type.any U.isAggregate && e.addressable

theorem stretch_own (ctx : Machine.Context) (hb : entries s = base ++ [e]) (h : own cg kind s = .ok u s') :
    ∃ e', Stretch ctx base e' (fun v => if copies cg.types e then clone v else pure v) s s' := by
  obtain ⟨top, s₁, hpeek, h⟩ := bind_eq_ok.1 h
  obtain ⟨rfl, rfl⟩ := peek_top hb hpeek
  have hsame : copies cg.types e = false → ∃ e', Stretch ctx base e'
      (fun v => if copies cg.types e then clone v else pure v) s s := by
    intro hcopies
    simp only [hcopies, Bool.false_eq_true, if_false]
    exact ⟨e, .refl ctx hb⟩
  cases ht : e.type with
  | none =>
    simp only [ht] at h
    obtain ⟨-, rfl⟩ := pure_eq_ok.1 h
    exact hsame (by simp [copies, ht])
  | some t =>
    simp only [ht] at h
    rcases ite_eq_ok.1 h with ⟨hcopy, h⟩ | ⟨hcopy, h⟩
    · have hcopies : copies cg.types e = true := by simpa [copies, ht] using hcopy
      simp only [hcopies, if_true]
      exact ⟨_, stretch_emit (i := fun _ => .copy) h hb (fun _ => rfl) (fun _ _ _ => rfl) (fun _ => rfl)
        fun _ f rest v st hstack => congrFun (mapTop_push hstack clone) st⟩
    · obtain ⟨-, rfl⟩ := pure_eq_ok.1 h
      exact hsame (by simpa [copies, ht] using hcopy)

theorem stretch_emitStep (hctx : ctx.host.types = cg.types) (hb : entries s = base ++ [e])
    (h : emitStep cg kind target step s = .ok u s') :
    ∃ e', Stretch ctx base e' (step.act cg.types (copies cg.types e)) s s' := by
  cases step with
  | box t =>
    obtain ⟨v, s₁, hown, h⟩ := bind_eq_ok.1 h
    obtain ⟨e₁, hfirst⟩ := stretch_own ctx hb hown
    have hsecond : Stretch ctx base (owned target) (fun v => step (Store.wrap v)) s₁ s' := by
      refine stretch_emitType (i := .box) h hfirst.entries rfl (fun _ _ => rfl)
        (fun c o ho => bind_of_ok ho) rfl ?_
      intro f rest v st hstack
      exact congrFun (mapTop_push hstack fun v => step (Store.wrap v)) st
    exact ⟨_, hfirst.trans hsecond⟩
  | unbox t =>
    exact ⟨_, stretch_emitType (i := .unbox (some t)) h hb rfl (fun _ _ => rfl)
      (fun c o ho => map_eq_ok ho) rfl fun f rest v st hstack => congrFun (mapTop_push hstack _) st⟩
  | retag t =>
    exact ⟨_, stretch_emitType (i := .retag (some t)) h hb rfl (fun _ _ => rfl)
      (fun c o ho => map_eq_ok ho) rfl fun f rest v st hstack =>
        congrFun (mapTop_push hstack fun v => pure { v with type := some t }) st⟩
  | cast t =>
    refine ⟨_, stretch_emitType (i := .cast (some t)) h hb rfl (fun _ _ => rfl)
      (fun c o ho => map_eq_ok ho) rfl fun f rest v st hstack => ?_⟩
    show (f.peek 0 >>= fun v => checkReference ctx.host.types v (some t) >>= fun _ => pure f) st = _
    rw [peek_push hstack, hctx]
    have hf : { f with stack := rest.push v } = f := by rw [← hstack]
    show (checkReference cg.types v (some t) >>= fun _ => pure f) st =
      ((checkReference cg.types v (some t) >>= fun _ => pure v) >>= fun w =>
        pure { f with stack := rest.push w }) st
    rw [bind_assoc]
    simp only [pure_bind, hf]
  | widen t | narrow t =>
    refine ⟨_, stretch_emit (i := fun _ => .convert (ConversionStep.number cg.types t)) h hb (fun _ => rfl)
      (fun c _ hoperands => ?_) (fun _ => rfl) fun _ f rest v st hstack => ?_⟩
    · exact map_eq_ok (byte_eq_ok (one_eq_some hoperands))
    · show mapTop f (fun v => pure (Machine.convert ctx.host.types (ConversionStep.number cg.types t) v)) st = _
      rw [hctx]
      exact congrFun (mapTop_push hstack _) st

theorem act_of_not_box {U : Universe} (h : ∀ t, step ≠ .box t) (b : Bool) : step.act U b = step.act U false := by
  cases step with
  | box t => exact absurd rfl (h t)
  | _ => rfl

/-- The steps of a plan, one behind the other. Only the first may box. -/
theorem stretch_emitSteps (hctx : ctx.host.types = cg.types) {steps : List ConversionStep}
    (hbox : ∀ t, .box t ∉ steps.tail) (hb : entries s = base ++ [e])
    (h : emitSteps cg kind target steps s = .ok u s') :
    ∃ e', Stretch ctx base e' (ConversionStep.actAll cg.types (copies cg.types e) steps) s s' := by
  induction steps generalizing s e with
  | nil =>
    obtain ⟨-, rfl⟩ := pure_eq_ok.1 h
    exact ⟨e, .refl ctx hb⟩
  | cons step steps ih =>
    obtain ⟨v, s₁, hstep, hrest⟩ := bind_eq_ok.1 h
    obtain ⟨e₁, hfirst⟩ := stretch_emitStep hctx hb hstep
    obtain ⟨e₂, hsecond⟩ := ih (fun t ht => hbox t (List.mem_of_mem_tail ht)) hfirst.entries hrest
    have hsame : ∀ b, ConversionStep.actAll cg.types b steps =
        ConversionStep.actAll cg.types false steps := by
      intro b
      have hnone : ∀ t, ConversionStep.box t ∉ steps := hbox
      clear ih hrest hsecond h hbox
      induction steps with
      | nil => rfl
      | cons step steps ih =>
        unfold ConversionStep.actAll
        rw [ih fun t ht => hnone t (List.mem_cons_of_mem _ ht),
          act_of_not_box (fun t ht => hnone t (ht ▸ List.mem_cons_self)) b]
    rw [hsame] at hsecond
    refine ⟨e₂, ?_⟩
    unfold ConversionStep.actAll
    rw [hsame]
    exact hfirst.trans hsecond

theorem stretch_convert (hctx : ctx.host.types = cg.types) {p : Plan} (hbox : ∀ t, .box t ∉ p.steps.tail)
    (hid : p.source = p.target → p.steps = []) (hb : entries s = base ++ [e]) (h : convert cg kind p s = .ok u s') :
    ∃ e', Stretch ctx base e' (ConversionStep.actAll cg.types (copies cg.types e) p.steps) s s' := by
  unfold convert at h
  rcases ite_eq_ok.1 h with ⟨hsame, h⟩ | ⟨-, h⟩
  · obtain ⟨-, rfl⟩ := pure_eq_ok.1 h
    rw [hid (by simpa [Plan.isIdentity] using hsame)]
    exact ⟨e, .refl ctx hb⟩
  · obtain ⟨target, s₁, hneed, h⟩ := bind_eq_ok.1 h
    obtain ⟨-, rfl⟩ := needType_eq_ok hneed
    cases hsteps : p.steps with
    | nil =>
      simp only [hsteps] at h
      obtain ⟨top, s₂, hpeek, h⟩ := bind_eq_ok.1 h
      obtain ⟨rfl, rfl⟩ := peek_top hb hpeek
      obtain ⟨rfl, base', old, hb', hnew⟩ := replaceTop_eq_ok h
      obtain ⟨rfl, -⟩ := List.append_inj' (hb.symm.trans hb') rfl
      -- only the model changes
      exact ⟨_, ⟨Nat.le_refl _, fun _ _ => rfl, .refl _, id, id⟩, hnew, fun c _ _ =>
        ⟨0, Turns.refl ctx c _ _⟩⟩
    | cons step steps =>
      simp only [hsteps] at h hbox
      exact stretch_emitSteps hctx hbox hb h

end Codegen

end TreeMachine
