import TreeMachine.Machine.Run
import TreeMachine.Proofs.Codegen.Steps
import TreeMachine.Proofs.Machine.Fetch

/-!
# Running through emitted code

What was emitted between two states of a compilation is a stretch of code. `Chunk.Holds` says that a chunk has
that stretch, whatever comes before and behind it, and `Machine.Turns` says what a frame that runs through it
does to the top of its operand stack. Stretches follow each other (`Turns.trans`), and an instruction that
works on the top is a stretch of its own (`turns_one`).
-/

namespace TreeMachine

open TreeMachine.EStateM

/-! ## Stretches of code -/

namespace Codegen

abbrev offset (s : CodegenState) : Nat := s.function.chunk.code.size

structure Grown (s s' : CodegenState) : Prop where
  offset : offset s ≤ offset s'
  code : ∀ i, i < Codegen.offset s → s'.function.chunk.code[i]? = s.function.chunk.code[i]?
  constants : Array.Grows s'.function.chunk.constants s.function.chunk.constants
  depth : ∀ {o d}, s.function.chunk.DepthAt o d → s'.function.chunk.DepthAt o d
  cover : s.function.chunk.DepthsCover → s'.function.chunk.DepthsCover

variable {s s' s'' : CodegenState} {kind : Kind}

theorem Grown.refl (s : CodegenState) : Grown s s := ⟨Nat.le_refl _, fun _ _ => rfl, .refl _, id, id⟩

theorem Grown.trans (h : Grown s s') (h' : Grown s' s'') : Grown s s'' where
  offset := Nat.le_trans h.offset h'.offset
  code i hi := (h'.code i (Nat.lt_of_lt_of_le hi h.offset)).trans (h.code i hi)
  constants := h'.constants.trans h.constants
  depth hd := h'.depth (h.depth hd)
  cover hc := h'.cover (h.cover hc)

theorem grown_constant {k : Constant} {i : Nat} (h : constant kind k s = .ok i s') : Grown s s' := by
  obtain ⟨ks, rfl, -, hks⟩ := constant_eq_ok h
  refine ⟨Nat.le_refl _, fun _ _ => rfl, ?_, id, id⟩
  rcases hks with rfl | rfl
  · exact .refl _
  · exact Array.grows_push _ _

end Codegen

structure Chunk.Holds (c : Chunk) (s s' : CodegenState) : Prop where
  code : ∀ i, Codegen.offset s ≤ i → i < Codegen.offset s' → c.code[i]? = s'.function.chunk.code[i]?
  constants : Array.Grows c.constants s'.function.chunk.constants
  depth : ∀ {o d}, Codegen.offset s ≤ o → o < Codegen.offset s' → s'.function.chunk.DepthAt o d → c.DepthAt o d

namespace Chunk.Holds

variable {c : Chunk} {s s' s'' : CodegenState}

theorem left (h : c.Holds s s'') (h' : Codegen.Grown s' s'') : c.Holds s s' where
  code i hi hi' := by rw [h.code i hi (Nat.lt_of_lt_of_le hi' h'.offset), h'.code i hi']
  constants := h.constants.trans h'.constants
  depth ho ho' hd := h.depth ho (Nat.lt_of_lt_of_le ho' h'.offset) (h'.depth hd)

theorem right (h : c.Holds s s'') (h' : Codegen.Grown s s') : c.Holds s' s'' where
  code i hi := h.code i (Nat.le_trans h'.offset hi)
  constants := h.constants
  depth ho := h.depth (Nat.le_trans h'.offset ho)

end Chunk.Holds

namespace Codegen

variable {s s' : CodegenState} {op : Opcode} {vs : List Nat} {rs : List StackEntry} {e : Effect}

theorem Emitted.offset (h : Emitted op vs rs e s s') : offset s' = offset s + op.size := by
  rw [h.eq, op.size_eq]
  show (writeOperands _ _ _).code.size = s.function.chunk.code.size + _
  rw [size_writeOperands _ _ _ h.length]
  simp only [Chunk.code_write, Array.size_push]
  omega

theorem Emitted.grown (h : Emitted op vs rs e s s') : Grown s s' where
  offset := by
    rw [h.offset]
    omega
  code i hi := by
    rw [h.eq]
    show (writeOperands _ _ _).code[i]? = _
    have hi' : i < s.function.chunk.code.size := hi
    rw [code_writeOperands_of_lt _ _ _ (by simp only [Chunk.code_write, Array.size_push]; omega)]
    rw [Chunk.code_write, Array.getElem?_push, if_neg (Nat.ne_of_lt hi)]
  constants := by
    rw [h.eq]
    show Array.Grows (writeOperands _ _ _).constants _
    rw [constants_writeOperands]
    exact .refl _
  depth hd := by
    rw [h.eq]
    exact (hd.write _ _).writeOperands
  cover hc := by
    rw [h.eq]
    exact (hc.write _ _).writeOperands

structure Emitted.At (c : Chunk) (op : Opcode) (vs : List Nat) (o depth : Nat) : Prop where
  byte : c.code[o]? = some op.byte
  operands : c.operandsAt? op.operands (o + 1) = some vs
  depth : c.DepthAt o depth

theorem Emitted.at {c : Chunk} (h : Emitted op vs rs e s s') (hc : c.Holds s s')
    (hcover : s.function.chunk.DepthsCover) : Emitted.At c op vs (Codegen.offset s) s.function.stack.depth := by
  have hsize := h.offset
  have hpos := op.size_pos
  have hchunk : s'.function.chunk =
      writeOperands op.operands vs (s.function.chunk.write op.byte s.function.stack.depth) := by
    rw [h.eq]
    rfl
  have hstart : (s.function.chunk.write op.byte s.function.stack.depth).code.size = Codegen.offset s + 1 := by
    simp
  refine ⟨?_, ?_, hc.depth (Nat.le_refl _) (by omega) ?_⟩
  · rw [hc.code _ (Nat.le_refl _) (by omega), hchunk, code_writeOperands_of_lt _ _ _ (by omega),
      Chunk.code_write, Array.getElem?_push, if_pos rfl]
  · have hread := operandsAt?_writeOperands op.operands vs
      (s.function.chunk.write op.byte s.function.stack.depth) h.length h.fits
    rw [hstart, ← hchunk] at hread
    rw [← hread]
    refine Chunk.operandsAt?_congr fun i hi hi' => hc.code i (by omega) ?_
    rw [op.size_eq] at hsize
    omega
  · rw [hchunk]
    exact (hcover.depthAt_write _ _).writeOperands

end Codegen

/-! ## Frames that run through -/

namespace Machine

variable {ctx : Context} {c : Chunk} {s : Store} {d o e : Nat} {g : Value → Exec Value} {f : Frame}
  {rest : Array Value} {v : Value}

/-- The outcome of a frame that runs on with `next` where a step succeeds: an error of the step gets a
location and keeps its cause, and a panic stays as it is. -/
inductive Continues (next : Value → Exec Value) :
    EStateM.Result Abort Store Value → EStateM.Result Abort Store Value → Prop
  | ok (w : Value) (s : Store) : Continues next (.ok w s) (next w s)
  | error {e e' : Error} (s : Store) : e'.cause? = e.cause? →
    Continues next (.error (.error e) s) (.error (.error e') s)
  | panic (p : Panic) (s : Store) : Continues next (.error (.panic p) s) (.error (.panic p) s)
  | endless (s : Store) : Continues next (.error .endless s) (.error .endless s)

/-- A frame at offset `o` that has `d` values on its stack runs through `k` instructions up to offset `e`,
where `g` has turned the top of the stack. -/
def Turns (ctx : Context) (c : Chunk) (d o e k : Nat) (g : Value → Exec Value) : Prop :=
  ∀ (f : Frame) (rest : Array Value) (v : Value) (n : Nat) (s : Store),
    f.closure.function.chunk = c → f.ip = o → f.stack = rest.push v → rest.size + 1 = d →
    Continues (fun w => run ctx n { f with ip := e, stack := rest.push w }) (g v s) (run ctx (n + k) f s)

theorem Turns.refl (ctx : Context) (c : Chunk) (d o : Nat) : Turns ctx c d o o 0 pure := by
  intro f rest v n s hc ho hstack hd
  have hf : { f with ip := o, stack := rest.push v } = f := by
    subst ho
    rw [← hstack]
  have hrun : Continues (fun w => run ctx n { f with ip := o, stack := rest.push w }) (.ok v s)
      (run ctx n { f with ip := o, stack := rest.push v } s) := .ok v s
  rw [hf] at hrun
  exact hrun

theorem Turns.trans {e' k k' : Nat} {g' : Value → Exec Value} (h : Turns ctx c d o e k g)
    (h' : Turns ctx c d e e' k' g') : Turns ctx c d o e' (k + k') fun v => g v >>= g' := by
  intro f rest v n s hc ho hstack hd
  have hfirst := h f rest v (n + k') s hc ho hstack hd
  rw [show n + (k + k') = n + k' + k by omega]
  cases hg : g v s with
  | ok w s₁ =>
    rw [hg] at hfirst
    show Continues _ ((g v >>= g') s) _
    rw [bind_of_ok hg]
    generalize hrun : run ctx (n + k' + k) f s = r at hfirst
    cases hfirst
    exact h' { f with ip := e, stack := rest.push w } rest w n s₁ hc rfl rfl hd
  | error a s₁ =>
    rw [hg] at hfirst
    show Continues _ ((g v >>= g') s) _
    rw [bind_of_error hg]
    generalize hrun : run ctx (n + k' + k) f s = r at hfirst
    cases hfirst with
    | error _ hcause => exact .error _ hcause
    | panic p => exact .panic p _
    | endless => exact .endless _

theorem cause?_located (function : String) (ip : Nat) (b : UInt8) (e : Error) :
    (if e.hasInstruction then e else Error.atInstruction function ip b e).cause? = e.cause? := by
  split <;> rfl

theorem checkDepth_of_depthAt (h : f.closure.function.chunk.DepthAt f.ip f.stack.size) : checkDepth f = pure () := by
  unfold checkDepth
  split
  · rename_i ds _ hds
    rw [h ds hds]
    show (if _ then _ else _) = _
    rw [if_pos rfl]
  · rfl

theorem turns_one {b : UInt8} {i : Instruction} (hb : c.code[o]? = some b)
    (hi : Instruction.fetch c o b = .ok (i, e)) (hret : i.isReturn = false) (hdepth : c.DepthAt o d)
    (hexec : ∀ (f : Frame) (rest : Array Value) (v : Value) (s : Store), f.stack = rest.push v →
      execute ctx f i s = (do return { f with stack := rest.push (← g v) } : Exec Frame) s) :
    Turns ctx c d o e 1 g := by
  intro f rest v n s hc ho hstack hd
  subst hc
  subst ho
  have hsize : f.stack.size = d := by rw [hstack, Array.size_push, hd]
  have hcheck : checkDepth f = pure () := checkDepth_of_depthAt (by rw [hsize]; exact hdepth)
  have hadvance : advance ctx f b = (do return .next (← execute ctx { f with ip := e } i)) := by
    unfold advance
    rw [hi]
    cases i <;> first | rfl | cases hret
  have hafter := hexec { f with ip := e } rest v s hstack
  rw [run, hb]
  dsimp only
  rw [hcheck, show located f.closure.function.name f.ip b (pure ()) = pure () from rfl, pure_bind, hadvance]
  cases hg : g v s with
  | ok w s₁ =>
    rw [bind_of_ok hg] at hafter
    have hok : located f.closure.function.name f.ip b
        (do return Progress.next (← execute ctx { f with ip := e } i)) s =
        .ok (.next { f with ip := e, stack := rest.push w }) s₁ := by
      unfold located Exec.mapError
      rw [bind_of_ok hafter]
      rfl
    rw [bind_of_ok hok]
    exact .ok w s₁
  | error a s₁ =>
    rw [bind_of_error hg] at hafter
    cases a with
    | error err =>
      have herror : located f.closure.function.name f.ip b
          (do return Progress.next (← execute ctx { f with ip := e } i)) s =
          .error (.error (if err.hasInstruction then err else
            .atInstruction f.closure.function.name f.ip b err)) s₁ := by
        unfold located Exec.mapError
        rw [bind_of_error hafter]
      rw [bind_of_error herror]
      exact .error _ (cause?_located ..)
    | panic p =>
      have hpanic : located f.closure.function.name f.ip b
          (do return Progress.next (← execute ctx { f with ip := e } i)) s = .error (.panic p) s₁ := by
        unfold located Exec.mapError
        rw [bind_of_error hafter]
      rw [bind_of_error hpanic]
      exact .panic p s₁
    | endless =>
      have hendless : located f.closure.function.name f.ip b
          (do return Progress.next (← execute ctx { f with ip := e } i)) s = .error .endless s₁ := by
        unfold located Exec.mapError
        rw [bind_of_error hafter]
      rw [bind_of_error hendless]
      exact .endless s₁

theorem pop_push (h : f.stack = rest.push v) : f.pop = pure (v, { f with stack := rest }) := by
  unfold Frame.pop
  rw [h, Array.back?_push, Array.pop_push]

theorem peek_push (h : f.stack = rest.push v) : f.peek 0 = pure v := by
  unfold Frame.peek
  rw [h]
  simp

theorem mapTop_push (h : f.stack = rest.push v) (g : Value → Exec Value) :
    mapTop f g = (do return { f with stack := rest.push (← g v) }) := by
  unfold mapTop
  rw [pop_push h]
  rfl

end Machine

end TreeMachine
