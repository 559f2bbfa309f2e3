import TreeMachine.Proofs.Host.Safe
import TreeMachine.Proofs.Machine.Forward

/-!
# Single instructions keep frames ready

A frame is *ready* for an instruction of a certified function if its operand stack is as deep as the
certificate says, its slots hold what is known of them, and nothing on the stack refers to a hidden cell
(`Frame.Ready`). An instruction whose operands make sense leaves the frame ready for what comes next, and
the world sound (`Machine.keeps_execute`); the exception is the call of a delegate, which may run other
frames.
-/

namespace TreeMachine

open Exec (Keeps KeepsPlain)

/-! ## Ready frames -/

/-- The frame is as a certificate says: `d` values are on its operand stack, and of the slots `facts`
are known. -/
structure Frame.Ready (shown : Loc → Prop) (mode : Nat → Option CaptureMode) (d : Nat)
    (facts : SlotFacts) (f : Frame) : Prop where
  closure : f.closure.Sound shown
  slots : ∀ {s m}, mode s = some m → s < f.locals.size
  size : f.stack.size = d
  stack : ∀ v ∈ f.stack, v.Plain shown
  values : ∀ {s m v}, mode s = some m → m ≠ .byReference → f.locals[s]? = some v → v.Plain shown
  plain : ∀ {s v}, (s, false) ∈ facts → f.locals[s]? = some v → v.Plain shown
  cells : ∀ {s}, (s, true) ∈ facts → ∃ v, f.locals[s]? = some v ∧ v.IsCell

abbrev Frame.Restacks (w : World) (f : Frame) (d : Nat) (f' : Frame) : Prop :=
  Frame.Level World.correspondence w f f d f' f'

namespace Frame

variable {shown shown' : Loc → Prop} {mode : Nat → Option CaptureMode} {d d' n s : Nat}
  {facts facts' : SlotFacts} {f f' : Frame} {w w' : World} {m : CaptureMode} {v : Value}

namespace Ready

theorem restacks (h : f.Ready w.shown mode d facts) : Restacks w f d f :=
  ⟨⟨f.stack⟩, h.stack, fun _ => h.size⟩

theorem mono (h : f.Ready shown mode d facts) (hs : ∀ loc, shown loc → shown' loc) : f.Ready shown' mode d facts where
  closure := h.closure.mono hs
  slots := h.slots
  size := h.size
  stack v hv := (h.stack v hv).mono hs
  values hm hne hv := (h.values hm hne hv).mono hs
  plain hf hv := (h.plain hf hv).mono hs
  cells := h.cells

theorem weaken (h : f.Ready shown mode d facts) (hf : facts' ⊆ facts) : f.Ready shown mode d facts' :=
  { h with
    plain := fun hs hv => h.plain (hf hs) hv
    cells := fun hs => h.cells (hf hs) }

theorem restack (h : f.Ready shown mode d facts) (hs : ∀ loc, shown loc → w'.shown loc)
    (h' : Restacks w' f d' f') : f'.Ready w'.shown mode d' facts := by
  obtain ⟨⟨stack⟩, hstack, hsize⟩ := h'
  exact { h.mono hs with size := hsize trivial, stack := hstack }

theorem goto (h : f.Ready shown mode d facts) (ip : Nat) : Ready shown mode d facts { f with ip := ip } :=
  { h with }

end Ready

/-! ## The operand stack -/

theorem Restacks.pop (hf : Restacks w f (d + 1) f') :
    ∃ v f₁, f'.pop = pure (v, f₁) ∧ v.Plain w.shown ∧ Restacks w f d f₁ := by
  obtain ⟨v, a, b, ha, hb, hv, hm⟩ := hf.pop_cases.resolve_left fun h => h.1 trivial
  cases congrFun (ha.symm.trans hb) w.store
  exact ⟨v, a, ha, hv, hm⟩

theorem Restacks.popN (hf : Restacks w f (d + n) f') :
    ∃ vs f₁, f'.popN n = pure (vs, f₁) ∧ (∀ v ∈ vs, v.Plain w.shown) ∧ Restacks w f d f₁ := by
  obtain ⟨vs, a, b, ha, hb, hvs, hm⟩ := hf.popN_cases.resolve_left fun h => h.1 trivial
  cases congrFun (ha.symm.trans hb) w.store
  exact ⟨vs, a, ha, hvs, hm⟩

/-! ## Slots and captured variables -/

theorem Ready.setLocal (h : f.Ready shown mode d facts) (hm : mode s = some m) {b : Bool}
    (hv : if b then m = .byReference ∧ v.IsCell else v.Plain shown) :
    Ready shown mode d (facts.learn s b) { f with locals := f.locals.setIfInBounds s v } := by
  have hget : ∀ {s'}, (f.locals.setIfInBounds s v)[s']? = if s = s' then some v else f.locals[s']? := by
    intro s'
    rw [Array.getElem?_setIfInBounds]
    split
    · rw [if_pos (h.slots hm)]
    · rfl
  have hlearn : ∀ {s' b'}, (s', b') ∈ facts.learn s b →
      (s = s' ∧ b = b') ∨ (s ≠ s' ∧ (s', b') ∈ facts) := by
    intro s' b' hmem
    rcases List.mem_cons.1 hmem with heq | hmem
    · cases heq
      exact .inl ⟨rfl, rfl⟩
    · simp only [List.mem_filter, decide_eq_true_eq] at hmem
      exact .inr ⟨fun heq => hmem.2 heq.symm, hmem.1⟩
  refine { h with slots := fun hm => ?_, values := fun {s' m' u} hm' hne hu => ?_,
                  plain := fun {s' u} hfact hu => ?_, cells := fun {s'} hfact => ?_ }
  · rw [Array.size_setIfInBounds]
    exact h.slots hm
  · rw [hget] at hu
    split at hu
    · -- the content may be a cell only if the variable is captured by reference
      rename_i heq
      subst heq
      cases hu
      rw [hm] at hm'
      cases hm'
      cases b with
      | true => exact (hne hv.1).elim
      | false => exact hv
    · exact h.values hm' hne hu
  · rw [hget] at hu
    rcases hlearn hfact with ⟨heq, rfl⟩ | ⟨hne, hold⟩
    · rw [if_pos heq] at hu
      cases hu
      exact hv
    · rw [if_neg hne] at hu
      exact h.plain hold hu
  · rcases hlearn hfact with ⟨heq, rfl⟩ | ⟨hne, hold⟩
    · exact ⟨v, by rw [hget, if_pos heq], hv.2⟩
    · obtain ⟨u, hu, hcell⟩ := h.cells hold
      exact ⟨u, by rw [hget, if_neg hne, hu], hcell⟩

theorem Ready.local_eq (h : f.Ready shown mode d facts) (hm : mode s = some m) : ∃ v, f.locals[s]? = some v :=
  ⟨_, Array.getElem?_eq_getElem (h.slots hm)⟩

end Frame

theorem Exec.Ends.gives {α : Type} {w : World} {x : Exec α} {P : World → Prop} {Q : World → α → Prop} {R : α → Prop}
    (h : Ends w x P Q) (hx : Gives x R) : Ends w x P fun w' a => Q w' a ∧ R a := by
  rcases h.cases with ⟨a, w', hres, hp, hw, hq⟩ | ⟨e, w', hres, hp, hw, he⟩
  · exact .of_ok hres rfl hp hw ⟨hq, hx _ _ _ hres⟩
  · exact .of_error hres rfl hp hw he

namespace Machine

variable {ctx : Context} {mode : Nat → Option CaptureMode} {facts : SlotFacts} {d : Nat} {f f' : Frame}
  {w : World} {v : Value} {m : Method} {shown : Loc → Prop} {i : Instruction}

open TreeMachine.Frame (Restacks)

structure Context.Safe (ctx : Context) : Prop where
  host : ctx.host.Safe
  call : Caller.Safe ctx.call

theorem Context.Safe.agrees (h : ctx.Safe) : ctx.Agrees World.correspondence ctx.call :=
  ⟨h.host.routines h.call, h.call.callers⟩

/-! ## Closures -/

theorem keeps_capture (hw : w.Sound) (hf : f.Ready w.shown mode d facts) {k : Capture}
    (hk : k.Found mode (f.closure.function.captures.map (·.byRef)) facts) :
    Keeps w (capture f k) fun w' v => k.Holds w'.shown v := by
  obtain ⟨i, hi, hk⟩ := hk
  have hplace : capture.place k = pure i := by
    unfold capture.place
    rw [hi]
    rfl
  unfold capture
  cases hsource : k.source with
  | slot =>
    simp only [hsource] at hk ⊢
    obtain ⟨⟨m, hm, hne⟩, hbyRef⟩ := hk
    obtain ⟨v, hv⟩ := hf.local_eq hm
    rw [hplace]
    simp only [pure_bind, Frame.local?, hv, Exec.getSome, Capture.Holds, hbyRef]
    exact .of_agrees (.clone (hf.values hm hne hv)) hw
  | slotCell =>
    simp only [hsource] at hk ⊢
    obtain ⟨-, hfact, hbyRef⟩ := hk
    obtain ⟨v, hv, hcell⟩ := hf.cells hfact
    rw [hplace]
    simp only [pure_bind, Frame.local?, hv, Exec.getSome, Capture.Holds, hbyRef]
    exact .pure hw hcell
  | free =>
    simp only [hsource] at hk ⊢
    obtain ⟨hcap, hbyRef⟩ := hk
    obtain ⟨v, hv, hplain⟩ := hf.closure.free_eq hcap
    rw [hplace]
    simp only [pure_bind, Frame.free?, hv, Exec.getSome, Capture.Holds, hbyRef]
    exact .of_agrees (.clone hplain) hw
  | freeCell =>
    simp only [hsource] at hk ⊢
    obtain ⟨hcap, hbyRef⟩ := hk
    obtain ⟨v, hv, hcell⟩ := hf.closure.free_eq hcap
    rw [hplace]
    simp only [pure_bind, Frame.free?, hv, Exec.getSome, Capture.Holds, hbyRef]
    exact .pure hw hcell
  | absent => simp only [hsource] at hk

theorem keeps_captures (hw : w.Sound) (hf : f.Ready w.shown mode d facts) {ks : List Capture}
    (hks : ∀ k ∈ ks, k.Found mode (f.closure.function.captures.map (·.byRef)) facts) :
    Keeps w (ks.mapM (capture f)) fun w' vs => List.Forall₂ (Capture.Holds w'.shown) ks vs := by
  induction ks generalizing w with
  | nil => exact .pure hw .nil
  | cons k ks ih =>
    rw [List.mapM_cons]
    refine (keeps_capture hw hf (hks k List.mem_cons_self)).bind fun w₁ v hext₁ h₁ hv => ?_
    refine (ih h₁ (hf.mono hext₁.shown) fun k hk => hks k (List.mem_cons_of_mem _ hk)).bind
      fun w₂ vs hext₂ h₂ hvs => ?_
    exact .pure h₂ (.cons (hv.mono hext₂.shown) hvs)

theorem keepsPlain_makeClosure (hw : w.Sound) (hf : f.Ready w.shown mode d facts) {j : Nat}
    {fn : Function} (hfn : f.closure.image[j]? = some fn)
    (hks : ∀ k ∈ fn.captures, k.Found mode (f.closure.function.captures.map (·.byRef)) facts) :
    KeepsPlain w (makeClosure f j) := by
  unfold makeClosure
  rw [hfn]
  refine (keeps_captures hw hf hks).bind fun w₁ free hext h₁ hfree => ?_
  have hmem : fn ∈ f.closure.image := Array.mem_of_getElem? hfn
  have hclosure := hf.closure.mono hext.shown
  have hsound : Delegate.Sound w₁.shown (.compiled { f.closure with function := fn, free := free.toArray }) := by
    refine ⟨hclosure.compiled.other hmem _, fun g hg => hclosure.constants g (.inr ?_), hfree⟩
    rcases hg with rfl | hg
    · exact hmem
    · exact hg
  refine .of_agrees ((Correspondence.Relates.addDelegate fun w' hext => ?_).seq fun _ _ _ _ => .plain rfl) h₁
  exact ⟨rfl, hsound.mono hext.shown⟩

/-! ## Instructions -/

/-- The frame after an instruction: `d` values are on the stack, and control goes where the instruction
leads. -/
structure Executed (shown : Loc → Prop) (mode : Nat → Option CaptureMode) (d : Nat)
    (facts : SlotFacts) (i : Instruction) (f f' : Frame) : Prop where
  ready : f'.Ready shown mode d (i.factsAfter facts)
  closure : f'.closure = f.closure
  ip : i.Leads f.ip f'.ip

theorem beside_of_valid {enter : Closure → List Value → Exec Value} (hf : f.Ready w.shown mode d facts)
    (hvalid : i.Valid f.closure.image f.closure.function.chunk.constants mode
      (f.closure.function.captures.map (·.byRef)) facts)
    (hreturn : i.isReturn = false) (hinvoke : ∀ args results, i ≠ .invoke args results)
    (hmakes : i.makesCell = false) : i.Beside World.correspondence w enter enter f f i := by
  cases i with
  | ret => cases hreturn
  | invoke args results => exact (hinvoke args results rfl).elim
  | makeCell => cases hmakes
  | push v =>
    refine .same rfl ?_
    rcases hvalid with hmem | hne
    · exact hf.closure.constants _ (.inl rfl) v hmem
    · exact Value.plain_of_ne hne
  | loadLocal slot =>
    obtain ⟨m, hm, hne⟩ := hvalid
    exact .loadLocal rfl fun _ hv => hf.values hm hne hv
  | storeLocal => exact .storeLocal Iff.rfl
  | loadCell => exact .loadCell rfl
  | storeCell => exact .storeCell rfl
  | loadFree index =>
    obtain ⟨u, hu, hplain⟩ := hf.closure.free_eq hvalid
    refine .same rfl fun v hv => ?_
    cases hu.symm.trans hv
    exact hplain
  | callDynamic => exact .same rfl fun _ => hvalid
  | closure j =>
    obtain ⟨fn, hfn, hks⟩ := hvalid
    exact .closure (World.agrees_of_keeps fun _ hext hw => keepsPlain_makeClosure hw (hf.mono hext.shown) hfn hks)
  | _ => exact .same rfl trivial

theorem execute_makeCell (ctx : Context) {slot : Nat} {m : CaptureMode} (hf : f.Ready shown mode d facts)
    (hm : mode slot = some m) : ∃ v, f.locals[slot]? = some v ∧ execute ctx f (.makeCell slot) = (do
      let loc ← Exec.newCell ctx.host.types v.type v
      pure { f with locals := f.locals.setIfInBounds slot ⟨v.type, .cell loc⟩ }) := by
  obtain ⟨v, hv⟩ := hf.local_eq hm
  have hlocal : f.local? slot = pure v := by
    rw [Frame.local?, hv]
    rfl
  have hset : ∀ u, f.setLocal slot u = pure { f with locals := f.locals.setIfInBounds slot u } :=
    fun u => if_pos (hf.slots hm)
  refine ⟨v, hv, ?_⟩
  unfold execute
  simp only [hlocal, pure_bind, hset]

theorem keeps_newCell (U : Universe) (t : Option Ty) (hw : w.Sound) (hv : v.Plain w.shown) :
    Keeps w (Exec.newCell U t v) fun w' _ => w'.Hides w := by
  obtain ⟨hholds, hsize⟩ := Store.holds_newCell (World.correspondence.restricts w) U t hw.holds hv
  refine .nesting_bind hw ?_
  exact .step (Nat.le_of_lt hsize) (hw.step (Store.blind_newCell U t v) hholds (Nat.le_of_lt hsize))
    ⟨hsize, fun hshown => Nat.lt_irrefl _ (hw.range _ hshown)⟩

/-- **An instruction keeps a frame ready**, unless it calls a delegate or returns. -/
theorem keeps_execute (hctx : ctx.Safe) (hw : w.Sound) (hf : f.Ready w.shown mode (d + i.effect.pop) facts)
    (hvalid : i.Valid f.closure.image f.closure.function.chunk.constants mode
      (f.closure.function.captures.map (·.byRef)) facts)
    (hreturn : i.isReturn = false) (hinvoke : ∀ args results, i ≠ .invoke args results) :
    Keeps w (execute ctx f i) fun w' f' =>
      Executed w'.shown mode (d + i.effect.push) facts i f f' ∧ (i.makesCell = true → w'.Hides w) := by
  cases hmakes : i.makesCell with
  | true =>
    cases i with
    | makeCell slot =>
      obtain ⟨hm, hfact⟩ := hvalid
      obtain ⟨v, hv, hexec⟩ := execute_makeCell ctx hf hm
      rw [hexec]
      refine (keeps_newCell _ _ hw (hf.plain hfact hv)).bind fun w₁ loc hext h₁ hhides => .pure h₁ ?_
      exact ⟨⟨(hf.mono hext.shown).setLocal (b := true) hm ⟨rfl, loc, rfl⟩, rfl, rfl⟩, fun _ => hhides⟩
    | _ => cases hmakes
  | false =>
    have hbeside : i.Beside World.correspondence w ctx.enter ctx.enter f f i :=
      beside_of_valid hf hvalid hreturn hinvoke hmakes
    have hkeeps := Keeps.of_relates (Machine.relates_execute hctx.agrees rfl hf.restacks hbeside) hw
    refine Keeps.imp (hkeeps.gives (gives_execute ctx f i)) fun w' f' hext _ hafter =>
      ⟨⟨?_, hafter.2.1, hafter.2.2⟩, nofun⟩
    -- what is known of the slots changes with a store to one
    have hlevel : Restacks w' f (d + i.effect.push) f' → f'.Ready w'.shown mode (d + i.effect.push) facts :=
      hf.restack hext.shown
    cases i with
    | storeLocal slot =>
      obtain ⟨m, hm⟩ := hvalid
      obtain ⟨v, hv, hstored⟩ := hafter.1
      exact ((hf.mono hext.shown).setLocal (b := false) hm hv).restack (fun _ h => h) hstored.level
    | makeCell => cases hmakes
    | jump target => exact (hf.goto target).restack hext.shown hafter.1
    | jumpIfFalse target => exact hafter.1.elim hlevel ((hf.goto target).restack hext.shown)
    | _ => exact hlevel hafter.1

theorem execute_makeCell_eq_ok (ctx : Context) {slot : Nat} {m : CaptureMode} (hf : f.Ready shown mode d facts)
    (hm : mode slot = some m) {s : Store} (hv : f.locals[slot]? = some v) (hnests : s.nests v = true) :
    ∃ f' s', execute ctx f (.makeCell slot) s = .ok f' s' := by
  obtain ⟨u, hu, hexec⟩ := execute_makeCell ctx hf hm
  cases hu.symm.trans hv
  have hcell : Exec.newCell ctx.host.types v.type v s = .ok (Store.newCell ctx.host.types v.type v s).1
      (Store.newCell ctx.host.types v.type v s).2 := by
    show (Exec.ending (s.nests v) >>= fun _ => Exec.step (Store.newCell ctx.host.types v.type v)) s = _
    rw [hnests]
    rfl
  rw [hexec, EStateM.bind_of_ok hcell]
  exact ⟨_, _, rfl⟩

end Machine

end TreeMachine
