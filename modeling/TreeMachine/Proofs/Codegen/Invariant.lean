import TreeMachine.Proofs.Code.WellFormed
import TreeMachine.Proofs.Codegen.Slots
import TreeMachine.Proofs.Codegen.Steps

/-!
# The invariant of a compilation

Between any two steps of a compilation, the code so far has a certificate, except that control may
also arrive behind the last instruction, where the next one will be, and that some jumps lead nowhere
yet. `Sound` says so for a layout `G`, `Good` hides the layout.

What a caller of a step has to know is in the parameters of `Good`:

* `r`: depths are recorded,
* `caps`: which captured variables of the function are cells,
* `opened`: the jumps that lead nowhere yet, with the depth and the facts they carry,
* `known`: the facts about slots where the next instruction will be,
* `reached`: control can arrive there; it cannot behind a jump or return.
-/

namespace TreeMachine.Codegen

/-- A jump that leads nowhere yet: where it is, and what it carries to its target. -/
structure OpenJump where
  offset : Nat
  depth : Nat
  facts : SlotFacts

def BindingValid (slots : Slots) (caps : List Bool) (known : SlotFacts) (b : Binding) : Prop :=
  match b.place with
  | .slot => ∃ sl, slots.slots[b.index]? = some sl ∧ sl.live = true ∧ sl.capture ≠ .byReference
  | .slotCell => (b.index, true) ∈ known
  | .free => caps[b.index]? = some false
  | .freeCell => caps[b.index]? = some true

section

variable (r : Bool) (caps : List Bool) (opened : List OpenJump) (known : SlotFacts)
  (reached : Bool)

/-- Control arrives at offset `o`: at an instruction, or where the next one will be. -/
def Arrives (f : FunctionState) (G : Nat → Option Point) (o d : Nat) (facts : SlotFacts) : Prop :=
  Lands G o d facts ∨
    (reached = true ∧ o = f.chunk.code.size ∧ f.stack.depth = d ∧ known ⊆ facts)

/-- The code of a function under construction has the certificate `G`. -/
structure Sound (image : Image) (f : FunctionState) (G : Nat → Option Point) : Prop where
  layout : Layout f.chunk G
  effect : ∀ {o p}, G o = some p → Effect.of p.op p.operands f.chunk.constants = .ok p.effect
  enough : ∀ {o p}, G o = some p → p.effect.pop ≤ p.depth
  valid : ∀ {o p}, G o = some p → p.Valid image f.chunk.constants f.slots.mode caps
  falls : ∀ {o p}, G o = some p → p.falls = true →
    Arrives known reached f G (o + p.op.size) p.after p.factsAfter
  jumps : ∀ {o p}, G o = some p → p.jumps = true → (∃ j ∈ opened, j.offset = o) ∨
    Arrives known reached f G (p.target o) p.after p.factsAfter
  opened : ∀ j ∈ opened, ∃ p, G j.offset = some p ∧ p.jumps = true ∧ p.after = j.depth ∧
    p.factsAfter = j.facts
  entry : (∃ p, G 0 = some p ∧ p.depth = 0 ∧ ∀ x ∈ p.facts, x.2 = false) ∨
    (f.chunk.code.size = 0 ∧ f.stack.depth = 0 ∧ ∀ x ∈ known, x.2 = false)
  env : ∀ x ∈ f.env, BindingValid f.slots caps known x.2
  known : ∀ x ∈ known, ∃ sl, f.slots.slots[x.1]? = some sl ∧ sl.live = true ∧
    sl.capture = .byReference
  slots : f.slots.Ok
  depth : ∀ {o p}, G o = some p → p.depth ≤ f.stack.max
  max : f.stack.depth ≤ f.stack.max
  recorded : f.chunk.depths.isSome = r

structure Good (s : CodegenState) : Prop where
  image : Image.Certified s.functions
  depths : ∀ f ∈ s.functions, f.chunk.depths.isSome = r
  sound : ∃ G, Sound r caps opened known reached s.functions s.function G

end

variable {r reached : Bool} {caps : List Bool} {opened opened' : List OpenJump} {known known' facts : SlotFacts}
  {image : Image} {f f' : FunctionState} {G : Nat → Option Point} {op : Opcode} {vs : List Nat} {e : Effect}
  {o d : Nat} {rs : List StackEntry} {p : Point}

def nextPoint (f : FunctionState) (known : SlotFacts) (op : Opcode) (vs : List Nat) (e : Effect) : Point :=
  ⟨op, vs, e, f.stack.depth, known⟩

theorem Arrives.write (h : Sound r caps opened known reached image f G) (ha : Arrives known reached f G o d facts) :
    Lands (putPoint G f.chunk.code.size (nextPoint f known op vs e)) o d facts := by
  rcases ha with ⟨q, hq, hqd, hqf⟩ | ⟨-, rfl, hdepth, hsub⟩
  · exact ⟨q, by rw [putPoint_ne _ _ (Nat.ne_of_lt (h.layout.lt hq)), hq], hqd, hqf⟩
  · exact ⟨_, putPoint_self _ _ _, hdepth, hsub⟩

/-! ## Instructions -/

theorem size_writeInstruction (hlen : vs.length = op.operands.length) (pop : Nat) (rs : List StackEntry)
    (f : FunctionState) : (writeInstruction op vs pop rs f).chunk.code.size = f.chunk.code.size + op.size :=
  size_instruction hlen f.chunk f.stack.depth

theorem isSome_depths_writeOperands (ws : List Opcode.Width) (vs : List Nat) (c : Chunk) :
    (writeOperands ws vs c).depths.isSome = c.depths.isSome := by
  induction ws, vs, c using writeOperands.induct with
  | case1 v vs ws c ih | case2 v vs ws c ih => rw [writeOperands, ih]; simp [Chunk.write]
  | case3 ws vs c h h' => rw [writeOperands]; exact h; exact h'

theorem depth_writeInstruction {pop : Nat} {f : FunctionState} (hpop : pop ≤ f.stack.depth) :
    (writeInstruction op vs pop rs f).stack.depth = f.stack.depth - pop + rs.length := by
  have h := congrArg List.length (entries_foldl_push rs (f.stack.drop pop))
  simp only [List.length_append, Array.length_toList, ModelStack.drop, Array.size_shrink] at h
  simp only [writeInstruction, ModelStack.depth, ModelStack.drop] at h hpop ⊢
  omega

/-- **Emitting an instruction.** The new point carries what is known where it is emitted; behind it,
no more may be claimed than follows from it. A jump becomes an open one. -/
theorem Sound.emit (h : Sound r caps opened known reached image f G) (hlen : vs.length = op.operands.length)
    (heff : Effect.of op vs f.chunk.constants = .ok e) (hpush : rs.length = e.push)
    (hfits : oversized? op.operands vs = none) (hpop : e.pop ≤ f.stack.depth)
    (hvalid : (nextPoint f known op vs e).Valid image f.chunk.constants f.slots.mode caps)
    (hopened : opened' = if (nextPoint f known op vs e).jumps = true
      then ⟨f.chunk.code.size, (nextPoint f known op vs e).after, (nextPoint f known op vs e).factsAfter⟩ :: opened
      else opened)
    (hknown : known' ⊆ (nextPoint f known op vs e).factsAfter)
    (hlive : ∀ x ∈ known', ∃ sl, f.slots.slots[x.1]? = some sl ∧ sl.live = true ∧ sl.capture = .byReference)
    (henv : ∀ x ∈ f.env, BindingValid f.slots caps known' x.2) :
    Sound r caps opened' known' (nextPoint f known op vs e).falls image (writeInstruction op vs e.pop rs f)
      (putPoint G f.chunk.code.size (nextPoint f known op vs e)) := by
  have hsize := size_writeInstruction hlen e.pop rs f
  have hdepth : (writeInstruction op vs e.pop rs f).stack.depth = (nextPoint f known op vs e).after := by
    rw [depth_writeInstruction hpop, hpush]
    rfl
  have hconst : (writeInstruction op vs e.pop rs f).chunk.constants = f.chunk.constants := by
    simp [writeInstruction]
  refine
    { layout := h.layout.write (p := nextPoint f known op vs e) hlen hfits
      effect := fun {o p} hp => ?_
      enough := fun {o p} hp => ?_
      valid := fun {o p} hp => ?_
      falls := fun {o p} hp hfall => ?_
      jumps := fun {o p} hp hjump => ?_
      opened := fun j hj => ?_
      entry := .inl ?_
      env := henv
      known := hlive
      slots := h.slots
      depth := fun {o p} hp => ?_
      max := depth_le_max_foldl_push rs ?_
      recorded := ?_ }
  · rw [hconst]
    rcases putPoint_cases hp with ⟨-, rfl⟩ | ⟨-, hp⟩
    · exact heff
    · exact h.effect hp
  · rcases putPoint_cases hp with ⟨-, rfl⟩ | ⟨-, hp⟩
    · exact hpop
    · exact h.enough hp
  · rw [hconst]
    rcases putPoint_cases hp with ⟨-, rfl⟩ | ⟨-, hp⟩
    · exact hvalid
    · exact h.valid hp
  · rcases putPoint_cases hp with ⟨rfl, rfl⟩ | ⟨-, hp⟩
    · exact .inr ⟨hfall, hsize.symm, hdepth, hknown⟩
    · exact .inl ((h.falls hp hfall).write h)
  · rcases putPoint_cases hp with ⟨rfl, rfl⟩ | ⟨hne, hp⟩
    · rw [if_pos hjump] at hopened
      exact .inl ⟨_, by rw [hopened]; exact List.mem_cons_self, rfl⟩
    · rcases h.jumps hp hjump with ⟨j, hj, hjo⟩ | ha
      · refine .inl ⟨j, ?_, hjo⟩
        rw [hopened]
        split_ifs
        · exact List.mem_cons_of_mem _ hj
        · exact hj
      · exact .inr (.inl (ha.write h))
  · have hold : ∀ j ∈ opened, ∃ p, putPoint G f.chunk.code.size (nextPoint f known op vs e) j.offset =
        some p ∧ p.jumps = true ∧ p.after = j.depth ∧ p.factsAfter = j.facts := by
      intro j hj
      obtain ⟨p, hp, hrest⟩ := h.opened j hj
      exact ⟨p, by rw [putPoint_ne _ _ (Nat.ne_of_lt (h.layout.lt hp)), hp], hrest⟩
    rw [hopened] at hj
    split_ifs at hj with hjump
    · rcases List.mem_cons.1 hj with rfl | hj
      · exact ⟨_, putPoint_self _ _ _, hjump, rfl, rfl⟩
      · exact hold j hj
    · exact hold j hj
  · rcases h.entry with ⟨p, hp, hrest⟩ | ⟨h0, hd0, hk0⟩
    · exact ⟨p, by rw [putPoint_ne _ _ (Nat.ne_of_lt (h.layout.lt hp)), hp], hrest⟩
    · rw [h0]
      exact ⟨_, putPoint_self _ _ _, hd0, hk0⟩
  · have hmax : f.stack.max ≤ (writeInstruction op vs e.pop rs f).stack.max :=
      max_le_foldl_push rs (f.stack.drop e.pop)
    rcases putPoint_cases hp with ⟨-, rfl⟩ | ⟨-, hp⟩
    · exact Nat.le_trans h.max hmax
    · exact Nat.le_trans (h.depth hp) hmax
  · have := h.max
    simp only [ModelStack.depth, ModelStack.drop, Array.size_shrink] at this ⊢
    omega
  · simp only [writeInstruction, isSome_depths_writeOperands]
    rw [← h.recorded]
    simp [Chunk.write]

/-! ## Changes beside the code -/

theorem Arrives.change (hcode : f'.chunk.code = f.chunk.code)
    (hdepth : reached = true → f'.stack.depth = f.stack.depth) (hknown : known' ⊆ known)
    (h : Arrives known reached f G o d facts) : Arrives known' reached f' G o d facts := by
  rcases h with h | ⟨hr, ho, hd, hf⟩
  · exact .inl h
  · exact .inr ⟨hr, by rw [hcode, ho], by rw [hdepth hr, hd], List.Subset.trans hknown hf⟩

/-- **Changing the rest of the state.** Constants, slots and functions may be added, bindings and facts
may change as long as they are valid, and the modeled stack may change in place; where control cannot
arrive, it may change altogether. -/
theorem Sound.change (h : Sound r caps opened known reached image f G) {image' : Image}
    (hcode : f'.chunk.code = f.chunk.code) (hdepths : f'.chunk.depths = f.chunk.depths)
    (hks : Array.Grows f'.chunk.constants f.chunk.constants) (himage : Array.Grows image' image)
    (hkept : f.slots.Kept f'.slots) (hok : f'.slots.Ok)
    (hdepth : reached = true ∨ f.chunk.code.size = 0 → f'.stack.depth = f.stack.depth)
    (hmax : f.stack.max ≤ f'.stack.max) (hle : f'.stack.depth ≤ f'.stack.max) (hknown : known' ⊆ known)
    (hlive : ∀ x ∈ known', ∃ sl, f'.slots.slots[x.1]? = some sl ∧ sl.live = true ∧ sl.capture = .byReference)
    (henv : ∀ x ∈ f'.env, BindingValid f'.slots caps known' x.2) : Sound r caps opened known' reached image' f' G := by
  have hchunk : f'.chunk = { f.chunk with constants := f'.chunk.constants } := by
    dsimp only
    rw [← hcode, ← hdepths]
  have hfall : reached = true → f'.stack.depth = f.stack.depth := fun hr => hdepth (.inl hr)
  exact
    { layout := by rw [hchunk]; exact h.layout.constants _
      effect := fun hp => Effect.of_mono (h.effect hp) hks
      enough := h.enough
      valid := fun hp => (h.valid hp).mono himage hks hkept.mode
      falls := fun hp hf => (h.falls hp hf).change hcode hfall hknown
      jumps := fun hp hj => (h.jumps hp hj).imp id (·.change hcode hfall hknown)
      opened := h.opened
      entry := h.entry.imp id fun ⟨h0, hd, hk⟩ =>
        ⟨by rw [hcode, h0], by rw [hdepth (.inr h0), hd], fun x hx => hk x (hknown hx)⟩
      env := henv
      known := hlive
      slots := hok
      depth := fun hp => Nat.le_trans (h.depth hp) hmax
      max := hle
      recorded := by rw [hdepths, h.recorded] }

/-! ## Jumps -/

theorem effect_of_jumps (hj : p.jumps = true) (vs ws : List Nat) (ks : Array Constant) :
    Effect.of p.op vs ks = Effect.of p.op ws ks := by
  unfold Point.jumps at hj
  split at hj
  · rename_i hop
    rw [hop]
    rfl
  · rename_i hop
    rw [hop]
    rfl
  · cases hj

theorem factsAfter_of_jumps (hj : p.jumps = true) : p.factsAfter = p.facts := by
  unfold Point.jumps at hj
  unfold Point.factsAfter
  split at hj
  · rename_i hop
    rw [hop]
  · rename_i hop
    rw [hop]
  · cases hj

theorem valid_of_jumps (hj : p.jumps = true) (ks : Array Constant) (mode : Nat → Option CaptureMode) :
    p.Valid image ks mode caps := by
  unfold Point.jumps at hj
  unfold Point.Valid
  split at hj
  · rename_i hop
    rw [hop]
    trivial
  · rename_i hop
    rw [hop]
    trivial
  · cases hj

/-- **Patching a jump.** It leads to where the next instruction will be, so control can arrive there if
the jump carries the modeled depth and what is claimed to be known. -/
theorem Sound.patch {j : OpenJump} (h : Sound r caps (j :: opened) known reached image f G)
    (hdepth : f.stack.depth = j.depth) (hfacts : known ⊆ j.facts)
    (hle : f.chunk.code.size - (j.offset + 1) - 2 ≤ 65535) : ∃ G', Sound r caps opened known true image
      { f with chunk := f.chunk.setDistance (j.offset + 1) (f.chunk.code.size - (j.offset + 1) - 2) } G' := by
  obtain ⟨p, hp, hjump, hafter, hpfacts⟩ := h.opened j List.mem_cons_self
  generalize hn : f.chunk.code.size - (j.offset + 1) - 2 = n at hle
  have hsize : p.op.size = 3 := by
    rw [p.op.size_eq, Layout.operands_of_jumps hjump]
    rfl
  have hfits := h.layout.fits hp
  have htarget : j.offset + p.op.size + n = f.chunk.code.size := by omega
  -- control arrives where it did before, and through the patched jump
  have harr : ∀ {o d : Nat} {facts : SlotFacts}, Arrives known reached f G o d facts →
      Arrives known true { f with chunk := f.chunk.setDistance (j.offset + 1) n }
        (putPoint G j.offset { p with operands := [n] }) o d facts := by
    intro o d facts ha
    rcases ha with ⟨q, hq, hqd, hqf⟩ | ⟨-, ho, hd, hf⟩
    · by_cases ho : o = j.offset
      · subst ho
        rw [hp] at hq
        cases hq
        exact .inl ⟨_, putPoint_self _ _ _, hqd, hqf⟩
      · exact .inl ⟨q, by rw [putPoint_ne _ _ ho, hq], hqd, hqf⟩
    · exact .inr ⟨rfl, by rw [Chunk.size_setDistance, ho], hd, hf⟩
  have hjump' : ({ p with operands := [n] } : Point).jumps = true := hjump
  refine ⟨putPoint G j.offset { p with operands := [n] },
    { layout := h.layout.patch hp hjump hle
      effect := fun {o q} hq => ?_
      enough := fun {o q} hq => ?_
      valid := fun {o q} hq => ?_
      falls := fun {o q} hq hfall => ?_
      jumps := fun {o q} hq hqj => ?_
      opened := fun k hk => ?_
      entry := ?_
      env := h.env
      known := h.known
      slots := h.slots
      depth := fun {o q} hq => ?_
      max := h.max
      recorded := h.recorded }⟩
  · rcases putPoint_cases hq with ⟨-, rfl⟩ | ⟨-, hq⟩
    · exact (effect_of_jumps hjump _ _ _).trans (h.effect hp)
    · exact h.effect hq
  · rcases putPoint_cases hq with ⟨-, rfl⟩ | ⟨-, hq⟩
    · exact (h.enough hp :)
    · exact h.enough hq
  · rcases putPoint_cases hq with ⟨-, rfl⟩ | ⟨-, hq⟩
    · exact valid_of_jumps hjump' _ _
    · exact h.valid hq
  · rcases putPoint_cases hq with ⟨rfl, rfl⟩ | ⟨-, hq⟩
    · have ha := harr (h.falls hp hfall)
      rw [factsAfter_of_jumps hjump] at ha
      rw [factsAfter_of_jumps hjump']
      exact ha
    · exact harr (h.falls hq hfall)
  · rcases putPoint_cases hq with ⟨rfl, rfl⟩ | ⟨hne, hq⟩
    · refine .inr (.inr ⟨rfl, ?_, ?_, ?_⟩)
      · rw [Chunk.size_setDistance, ← htarget]
        rfl
      · rw [hdepth, ← hafter]
        rfl
      · rw [factsAfter_of_jumps hjump', ← factsAfter_of_jumps hjump, hpfacts]
        exact hfacts
    · rcases h.jumps hq hqj with ⟨k, hk, hko⟩ | ha
      · rcases List.mem_cons.1 hk with rfl | hk
        · exact absurd hko.symm hne
        · exact .inl ⟨k, hk, hko⟩
      · exact .inr (harr ha)
  · obtain ⟨q, hq, hqj, hqa, hqf⟩ := h.opened k (List.mem_cons_of_mem _ hk)
    by_cases ho : k.offset = j.offset
    · rw [ho, hp] at hq
      cases hq
      rw [ho]
      refine ⟨_, putPoint_self _ _ _, hjump', hqa, ?_⟩
      rw [factsAfter_of_jumps hjump', ← hqf, factsAfter_of_jumps hjump]
    · exact ⟨q, by rw [putPoint_ne _ _ ho, hq], hqj, hqa, hqf⟩
  · rcases h.entry with ⟨q, hq, hq0, hqf⟩ | h0
    · by_cases ho : 0 = j.offset
      · rw [ho, hp] at hq
        cases hq
        exact .inl ⟨{ p with operands := [n] }, by rw [ho]; exact putPoint_self _ _ _, hq0, hqf⟩
      · exact .inl ⟨q, by rw [putPoint_ne _ _ ho, hq], hq0, hqf⟩
    · have := h.layout.lt hp
      omega
  · rcases putPoint_cases hq with ⟨-, rfl⟩ | ⟨-, hq⟩
    · exact (h.depth hp :)
    · exact h.depth hq

end TreeMachine.Codegen
