import TreeMachine.Proofs.Machine.Moments

/-!
# Runs of certified code

A frame of a certified function runs from point to point of the certificate until it returns: every
instruction leaves the frame ready for the next one (`traced_advance`), so every moment of the run is
sound (`traced_run`), and so is every moment of the closures that are called from it
(`traced_callClosure`).
-/

namespace TreeMachine.Machine

open Exec (Keeps KeepsPlain)
open Moment
open TreeMachine.Frame

variable {ctx : Context} {mode : Nat → Option CaptureMode} {G : Nat → Option Point} {d : Nat}
  {facts : SlotFacts} {f : Frame} {w : World} {p : Point} {i : Instruction}
  {nested : Closure → List Value → Store → List Moment}

/-- The frame stands at a point of a certificate of its function, and is ready for it. -/
structure Stands (shown : Loc → Prop) (mode : Nat → Option CaptureMode) (G : Nat → Option Point)
    (p : Point) (f : Frame) : Prop where
  certified : f.closure.function.Certified f.closure.image mode G
  point : G f.ip = some p
  ready : f.Ready shown mode p.depth p.facts

abbrev FetchedAt (mode : Nat → Option CaptureMode) (f : Frame) (p : Point) (i : Instruction) : Prop :=
  p.Fetches f.closure.image f.closure.function.chunk mode (f.closure.function.captures.map (·.byRef))
    f.ip i

/-! ## Moments -/

namespace Stands

theorem byte (h : Stands w.shown mode G p f) :
    f.closure.function.chunk.code[f.ip]? = some p.op.byte := h.certified.layout.byte h.point

theorem instruction? (h : Stands w.shown mode G p f) (hi : FetchedAt mode f p i) (s : Store) :
    Moment.instruction? ⟨f, s⟩ = some i := by
  have hbyte : (⟨f, s⟩ : Moment).function.chunk.code[f.ip]? = some p.op.byte := h.byte
  have hfetch : Instruction.fetch (⟨f, s⟩ : Moment).function.chunk f.ip p.op.byte = _ := hi.fetch
  unfold Moment.instruction?
  simp only [hbyte, hfetch]
  rfl

theorem sound (h : Stands w.shown mode G p f) (hi : FetchedAt mode f p i) (s : Store) : Moment.Sound ⟨f, s⟩ := by
  have hinstr := h.instruction? hi s
  have heq : ∀ {i'}, Moment.instruction? ⟨f, s⟩ = some i' → i = i' := fun h' => by
    rw [hinstr] at h'
    exact Option.some.inj h'
  have hsize : f.stack.size = p.depth := h.ready.size
  constructor
  case depth =>
    show Chunk.DepthAt _ f.ip f.stack.size
    rw [hsize]
    exact h.certified.layout.depth h.point
  case bound =>
    show (f.stack.size : Int) ≤ _
    rw [hsize]
    exact h.certified.depth h.point
  case fetched =>
    refine ⟨i, hinstr, ?_⟩
    show _ ≤ f.stack.size
    rw [hsize, hi.effect]
    exact h.certified.enough h.point
  case slot =>
    intro slot hslot
    rcases hslot with hslot | hslot
    · cases heq hslot
      exact h.ready.cells hi.valid
    · cases heq hslot
      exact h.ready.cells hi.valid
  case free =>
    intro index hindex
    rcases hindex with hindex | hindex
    · cases heq hindex
      exact h.ready.closure.free_eq hi.valid
    · cases heq hindex
      exact h.ready.closure.free_eq hi.valid
  case captured =>
    intro j fn k hclosure hfn hk
    cases heq hclosure
    obtain ⟨fn', hfn', hks⟩ := hi.valid
    rw [hfn'] at hfn
    cases hfn
    obtain ⟨index, hindex, hfound⟩ := hks k hk
    refine ⟨index, hindex, fun hsource => ?_, fun hsource => ?_⟩
    · simp only [hsource] at hfound
      exact h.ready.cells hfound.2.1
    · simp only [hsource] at hfound
      exact h.ready.closure.free_eq hfound.1

theorem hidden (h : Stands w.shown mode G p f) (hi : FetchedAt mode f p i) (hw : w.Sound) :
    Moment.Hidden w.shown ⟨f, w.store⟩ := by
  have hinstr := h.instruction? hi w.store
  constructor
  case loaded =>
    intro v hv
    unfold loaded? at hv
    rw [hinstr] at hv
    cases i with
    | loadLocal slot =>
      obtain ⟨m, hm, hne⟩ := hi.valid
      exact h.ready.values hm hne hv
    | loadFree index =>
      obtain ⟨u, hu, hplain⟩ := h.ready.closure.free_eq hi.valid
      have hv : f.closure.free[index]? = some v := hv
      rw [hu] at hv
      cases hv
      exact hplain
    | _ => cases hv
  case made =>
    intro U loc hloc
    unfold made? at hloc
    rw [hinstr] at hloc
    cases i with
    | makeCell slot =>
      obtain ⟨v, hv, rfl⟩ := Option.map_eq_some_iff.1 hloc
      obtain ⟨s, u, -, heq⟩ := Store.newCell_eq (World.correspondence.restricts w) U v.type hw.holds
        (h.ready.plain hi.valid.2 (Option.filter_eq_some_iff.1 hv).1)
      exact congrArg Prod.fst heq
    | _ => cases hloc

theorem makesCell_of_made (h : Stands w.shown mode G p f) (hi : FetchedAt mode f p i) {s : Store} {U : Universe}
    {loc : Loc} (hmade : made? U ⟨f, s⟩ = some loc) : i.makesCell = true := by
  unfold made? at hmade
  rw [h.instruction? hi s] at hmade
  cases i with
  | makeCell slot => rfl
  | _ => cases hmade

theorem checkDepth_eq (h : Stands w.shown mode G p f) : checkDepth f = pure () := by
  unfold checkDepth
  split
  · rename_i ds _ hds
    have hdepth : ds[f.ip]? = some (p.depth : Int) := h.certified.layout.depth h.point ds hds
    rw [hdepth]
    show (if _ then _ else _) = _
    rw [if_pos (congrArg Nat.cast h.ready.size).symm]
  · rfl

end Stands

/-! ## Calls of delegates -/

/-- Calling closures in code keeps worlds sound; `nested` are the moments of a call. -/
def Enters (ctx : Context) (nested : Closure → List Value → Store → List Moment) : Prop :=
  ∀ ⦃w : World⦄ ⦃c : Closure⦄ ⦃args : List Value⦄, w.Sound → c.Sound w.shown →
    (∀ v ∈ args, v.Plain w.shown) →
    Traced w (ctx.enter c args) (nested c args w.store) fun w' v => v.Plain w'.shown

theorem callee_goto (f : Frame) (ip args : Nat) : callee { f with ip := ip } args = callee f args := by
  unfold callee popN
  by_cases hle : args ≤ f.stack.size
  · simp only [if_pos hle, pure_bind, pop]
    cases (f.stack.shrink (f.stack.size - args)).back? with
    | none => rfl
    | some v => rfl
  · simp only [if_neg hle]

theorem traced_invoke (hctx : ctx.Safe) (henter : Enters ctx nested) (hw : w.Sound) {args results : Nat}
    (hf : f.Ready w.shown mode (d + (args + 1)) facts) (hresults : results ≤ 1) :
    Traced w (invoke ctx f args results) (enteredMoments nested f args w.store) fun w' f' =>
      Frame.Restacks w' f (d + results) f' := by
  have hr := hf.restacks
  rw [show d + (args + 1) = d + 1 + args by omega] at hr
  obtain ⟨values, f₁, hpopN, hvalues, hr₁⟩ := hr.popN
  obtain ⟨fn, f₂, hpop, hfn, hr₂⟩ := hr₁.pop
  have hcallee : callee f args = pure (fn, values) := by
    rw [callee, hpopN, pure_bind]
    dsimp only
    rw [hpop, pure_bind]
  have hpush : ∀ w' v, w'.Extends w → w'.Sound → v.Plain w'.shown →
      Keeps w' (if 0 < results then pure (f₂.push v) else pure f₂) fun w' f' =>
        Frame.Restacks w' f (d + results) f' := by
    intro w' v hext hw' hv
    have hr' := hr₂.later hext
    split
    · obtain rfl : results = 1 := by omega
      exact .pure hw' (hr'.push hv)
    · obtain rfl : results = 0 := by omega
      exact .pure hw' hr'
  unfold invoke enteredMoments entered?
  rw [hpopN, pure_bind, hcallee]
  dsimp only [pure, EStateM.pure]
  rw [hpop, pure_bind]
  dsimp only
  split
  · -- the null delegate is no delegate
    rename_i hnil
    have hnone : w.store.delegate? fn = none := by
      unfold Store.delegate?
      rw [of_decide_eq_true hnil]
    rw [hnone]
    exact .of_keeps (.fail hw rfl)
  · refine .get_bind ?_
    cases hd : w.store.delegate? fn with
    | none =>
      dsimp only
      exact .of_keeps ((Keeps.fail (Q := fun w' v => v.Plain w'.shown) hw rfl).bind hpush)
    | some dl =>
      have hdl := hw.delegate hd
      -- other delegates are called through the host
      have hother : Keeps w (do
          let v ← ctx.call dl values
          let result ← Exec.clone v
          if 0 < results then pure (f₂.push result) else pure f₂) fun w' f' =>
            Frame.Restacks w' f (d + results) f' :=
        (hctx.call hw hdl hvalues).bind fun w₁ v hext₁ h₁ hv =>
          (Keeps.of_agrees (.clone hv) h₁).bind fun w₂ u hext₂ h₂ hu =>
            hpush w₂ u (hext₁.trans hext₂) h₂ hu
      cases dl with
      | compiled c => exact (henter hw hdl hvalues).bind hpush
      | evaluated l name env maxDepth => exact .of_keeps hother
      | host name routine => exact .of_keeps hother

/-! ## Instructions -/

/-- What is there after an instruction: a result, or the frame at a later point. -/
def Proceeds (shown : Loc → Prop) (mode : Nat → Option CaptureMode) (G : Nat → Option Point) (f : Frame) :
    Progress → Prop
  | .done v => v.Plain shown
  | .next f' => (∃ p', Stands shown mode G p' f') ∧ f'.closure = f.closure ∧ f.ip < f'.ip

theorem Stands.proceeds {shown shown' : Loc → Prop} {f' : Frame} (h : Stands shown mode G p f)
    (hi : FetchedAt mode f p i) (hreturn : i.isReturn = false)
    (h' : Executed shown' mode (p.depth - i.effect.pop + i.effect.push) p.facts i
      { f with ip := f.ip + p.op.size } f') : Proceeds shown' mode G f (.next f') := by
  have hlands : Lands G f'.ip p.after p.factsAfter ∧ f.ip < f'.ip := by
    have hpos := p.op.size_pos
    rcases hi.leads hreturn h'.ip with ⟨heq, hfalls⟩ | ⟨heq, hjumps⟩
    · rw [heq]
      exact ⟨h.certified.falls h.point hfalls, Nat.lt_add_of_pos_right hpos⟩
    · rw [heq]
      refine ⟨h.certified.jumps h.point hjumps, ?_⟩
      unfold Point.target
      omega
  obtain ⟨⟨q, hq, hdepth, hfacts⟩, hlt⟩ := hlands
  have hready := h'.ready
  rw [hi.effect, hi.facts] at hready
  refine ⟨⟨q, ?_, hq, ?_⟩, h'.closure, hlt⟩
  · rw [h'.closure]
    exact h.certified
  · rw [hdepth]
    exact hready.weaken hfacts

theorem traced_advance (hctx : ctx.Safe) (henter : Enters ctx nested) (hw : w.Sound)
    (h : Stands w.shown mode G p f) (hi : FetchedAt mode f p i) :
    Traced w (advance ctx f p.op.byte) (innerMoments nested ⟨f, w.store⟩) fun w' r =>
      Proceeds w'.shown mode G f r ∧ (i.makesCell = true → w'.Hides w) := by
  obtain ⟨d, hd⟩ : ∃ d, p.depth = d + i.effect.pop :=
    ⟨p.depth - i.effect.pop, by have := h.certified.enough h.point; rw [hi.effect]; omega⟩
  have hready : Frame.Ready w.shown mode (d + i.effect.pop) p.facts { f with ip := f.ip + p.op.size } :=
    hd ▸ h.ready.goto _
  have hproceeds : ∀ {shown' f'}, i.isReturn = false →
      Executed shown' mode (d + i.effect.push) p.facts i { f with ip := f.ip + p.op.size } f' →
      Proceeds shown' mode G f (.next f') := by
    intro shown' f' hreturn hexec
    refine h.proceeds hi hreturn ?_
    rwa [hd, Nat.add_sub_cancel]
  have hinner : (∀ args results, i ≠ .invoke args results) → innerMoments nested ⟨f, w.store⟩ = [] := by
    intro hne
    unfold innerMoments
    rw [h.instruction? hi]
    cases i with
    | invoke args results => exact (hne args results rfl).elim
    | _ => rfl
  by_cases hreturn : i.isReturn = true
  · have hf : f.Ready w.shown mode (d + i.effect.pop) p.facts := hd ▸ h.ready
    rw [hinner (by rintro args results rfl; cases hreturn), advance, hi.fetch]
    cases i with
    | ret =>
      obtain ⟨v, f', hpop, hv, -⟩ := hf.restacks.pop
      dsimp only
      rw [hpop]
      exact .of_keeps (.pure hw ⟨hv, fun hcell => absurd hcell Bool.false_ne_true⟩)
    | retVoid => exact .of_keeps (.pure hw ⟨Value.plain_nil, fun hcell => absurd hcell Bool.false_ne_true⟩)
    | _ => cases hreturn
  have hreturn : i.isReturn = false := by simpa using hreturn
  have hadvance : advance ctx f p.op.byte =
      (execute ctx { f with ip := f.ip + p.op.size } i >>= fun f' => pure (.next f')) := by
    rw [advance, hi.fetch]
    cases i <;> first | rfl | cases hreturn
  rw [hadvance]
  by_cases hinvoke : ∃ args results, i = .invoke args results
  · obtain ⟨args, results, rfl⟩ := hinvoke
    have hms : innerMoments nested ⟨f, w.store⟩ =
        enteredMoments nested { f with ip := f.ip + p.op.size } args w.store := by
      unfold innerMoments enteredMoments entered?
      rw [h.instruction? hi, callee_goto]
    rw [hms]
    refine Traced.bind ((traced_invoke hctx henter hw hready hi.valid).gives
      (gives_execute ctx _ (.invoke args results)))
      fun w' f' hext hw' hr => ?_
    exact .pure hw' ⟨hproceeds hreturn ⟨hready.restack hext.shown hr.1, hr.2.1, hr.2.2⟩,
      fun hcell => absurd hcell Bool.false_ne_true⟩
  · have hne : ∀ args results, i ≠ .invoke args results := fun args results heq =>
      hinvoke ⟨args, results, heq⟩
    rw [hinner hne]
    refine .of_keeps ((keeps_execute hctx hw hready hi.valid hreturn hne).bind fun w' f' _ hw' hexec => ?_)
    exact .pure hw' ⟨hproceeds hreturn hexec.1, hexec.2⟩

theorem advance_eq_ok_of_made (ctx : Context) (h : Stands w.shown mode G p f) (hi : FetchedAt mode f p i)
    {U : Universe} {s : Store} {loc : Loc} (hmade : made? U ⟨f, s⟩ = some loc) :
    ∃ r s', advance ctx f p.op.byte s = .ok r s' := by
  unfold made? at hmade
  rw [h.instruction? hi] at hmade
  cases i with
  | makeCell slot =>
    obtain ⟨v, hv, -⟩ := Option.map_eq_some_iff.1 hmade
    obtain ⟨hlocal, hnests⟩ := Option.filter_eq_some_iff.1 hv
    obtain ⟨f', s', hexec⟩ := execute_makeCell_eq_ok ctx (h.ready.goto (f.ip + p.op.size)) hi.valid.1 hlocal hnests
    refine ⟨.next f', s', ?_⟩
    rw [advance, hi.fetch]
    exact EStateM.bind_eq_ok.2 ⟨f', s', hexec, rfl⟩
  | _ => cases hmade

/-! ## Runs -/

theorem Stands.chain {w' w'' : World} {rest : List Moment} (hw : w.Sound) (h : Stands w.shown mode G p f)
    (hi : FetchedAt mode f p i) (hinner : Chain w (innerMoments nested ⟨f, w.store⟩) w')
    (hides : ∀ {U loc}, made? U ⟨f, w.store⟩ = some loc → w'.Hides w) (hrest : Chain w' rest w'') :
    Chain w (⟨f, w.store⟩ :: (innerMoments nested ⟨f, w.store⟩ ++ rest)) w'' := by
  have hsound := h.sound hi w.store
  have hhidden := h.hidden hi hw
  by_cases hmakes : i.makesCell = true
  · -- an instruction that makes a cell calls nothing
    have hnil : innerMoments nested ⟨f, w.store⟩ = [] := by
      unfold innerMoments
      rw [h.instruction? hi]
      cases i with
      | makeCell slot => rfl
      | _ => cases hmakes
    rw [hnil] at hinner ⊢
    exact .cons (.refl w) rfl hw hsound hhidden hinner.extended hides hrest
  · refine .cons (.refl w) rfl hw hsound hhidden (.refl w) (fun {U loc} hmade => ?_)
      (hinner.append hrest)
    exact absurd (h.makesCell_of_made hi hmade) hmakes

/-- **A frame that stands at a point runs soundly** until it returns. It has at least as many instructions
left as there are bytes, and every instruction moves on. -/
theorem traced_run (hctx : ctx.Safe) (henter : Enters ctx nested) (n : Nat) :
    ∀ {w : World} {f : Frame} {p : Point}, w.Sound → Stands w.shown mode G p f →
      f.closure.function.chunk.code.size ≤ f.ip + n →
      Traced w (run ctx n f) (runMoments ctx nested n f w.store) fun w' v => v.Plain w'.shown := by
  induction n with
  | zero =>
    intro w f p _ h hn
    have := h.certified.layout.lt h.point
    omega
  | succ n ih =>
    intro w f p hw h hn
    obtain ⟨i, hi⟩ := h.certified.fetches h.point
    have hadvance := (traced_advance hctx henter hw h hi).located f.closure.function.name f.ip p.op.byte
    have hcheck : located f.closure.function.name f.ip p.op.byte (checkDepth f) = pure () := by
      rw [h.checkDepth_eq]
      rfl
    have hrun : run ctx (n + 1) f =
        (located f.closure.function.name f.ip p.op.byte (advance ctx f p.op.byte) >>= fun
          | .done v => pure v
          | .next f => run ctx n f) := by
      rw [run, h.byte]
      dsimp only
      rw [hcheck]
      exact pure_bind () _
    have hnext : (do
        located f.closure.function.name f.ip p.op.byte (checkDepth f)
        located f.closure.function.name f.ip p.op.byte (advance ctx f p.op.byte)) =
          located f.closure.function.name f.ip p.op.byte (advance ctx f p.op.byte) := by
      rw [hcheck]
      exact pure_bind () _
    have hmoments : runMoments ctx nested (n + 1) f w.store =
        ⟨f, w.store⟩ :: (innerMoments nested ⟨f, w.store⟩ ++ followingMoments (runMoments ctx nested n)
          (located f.closure.function.name f.ip p.op.byte (advance ctx f p.op.byte) w.store)) := by
      rw [runMoments, h.byte]
      dsimp only
      rw [hnext]
    rw [hrun, hmoments]
    rcases hadvance.cases with ⟨r, w', hres, hinner, hw', hproceeds, hides⟩ |
      ⟨e, w', hres, hinner, hw', he⟩
    · rw [hres]
      have hides : ∀ {U loc}, made? U ⟨f, w.store⟩ = some loc → w'.Hides w := fun {U loc} hmade =>
        hides (h.makesCell_of_made hi hmade)
      cases r with
      | done v =>
        exact .of_ok (EStateM.bind_of_ok hres) rfl (h.chain hw hi hinner hides (.nil (.refl w'))) hw'
          hproceeds
      | next f' =>
        obtain ⟨⟨p', h'⟩, hclosure, hlt⟩ := hproceeds
        have hnext := ih hw' h' (by rw [hclosure]; omega)
        rcases hnext.cases with ⟨v, w'', hres', hrest, hw'', hv⟩ | ⟨e, w'', hres', hrest, hw'', he⟩
        · exact .of_ok ((EStateM.bind_of_ok hres).trans hres') rfl (h.chain hw hi hinner hides hrest)
            hw'' hv
        · exact .of_error ((EStateM.bind_of_ok hres).trans hres') rfl
            (h.chain hw hi hinner hides hrest) hw'' he
    · rw [hres]
      refine .of_error (EStateM.bind_of_error hres) rfl
        (h.chain hw hi hinner (fun hmade => ?_) (.nil (.refl w'))) hw' he
      -- an instruction that makes a cell does not fail
      obtain ⟨r, s, hok⟩ := advance_eq_ok_of_made ctx h hi hmade
      rw [located, Exec.mapError, hok] at hres
      cases hres

/-! ## Calls -/

theorem stands_enter {c : Closure} {args : List Value} (hc : c.Sound w.shown) (hargs : ∀ v ∈ args, v.Plain w.shown) :
    ∃ mode G p, Stands w.shown mode G p (enter c args) := by
  obtain ⟨mode, G, hcert⟩ := hc.compiled.certified
  obtain ⟨p, hp, hdepth, hfacts⟩ := hcert.entry
  have hsize : (enter c args).locals.size = c.function.locals.toNat := by
    simp only [enter, List.size_toArray, List.length_append, List.length_take,
      List.length_replicate]
    omega
  have hplain : ∀ v ∈ (enter c args).locals, v.Plain w.shown := by
    intro v hv
    simp only [enter, List.mem_toArray, List.mem_append, List.mem_replicate] at hv
    rcases hv with hv | ⟨-, rfl⟩
    · exact hargs v (List.mem_of_mem_take hv)
    · exact Value.plain_default
  refine ⟨mode, G, p, hcert, hp, ?_⟩
  exact
    { closure := hc
      slots := fun {s m} hm => by
        have := hcert.slots hm
        rw [hsize]
        omega
      size := hdepth.symm
      stack := fun v hv => by simp [enter] at hv
      values := fun _ _ hv => hplain _ (Array.mem_of_getElem? hv)
      plain := fun _ hv => hplain _ (Array.mem_of_getElem? hv)
      cells := fun hs => by cases hfacts _ hs }

theorem traced_callClosure {H : Host} {call : Caller} (hH : H.Safe) (hcall : Caller.Safe call) (n : Nat) :
    ∀ {w : World} {c : Closure} {args : List Value}, w.Sound → c.Sound w.shown → (∀ v ∈ args, v.Plain w.shown) →
      Traced w (callClosure H call n c args) (callMoments H call n c args w.store) fun w' v =>
        v.Plain w'.shown := by
  induction n with
  | zero =>
    intro w c args hw _ _
    unfold callClosure
    split
    · exact .of_keeps (.fail hw rfl)
    · exact .of_keeps (.of_error rfl rfl (.refl w) hw rfl)
  | succ n ih =>
    intro w c args hw hc hargs
    unfold callClosure callMoments
    split
    · rw [if_pos (.inl ‹_›)]
      exact .of_keeps (.fail hw rfl)
    · dsimp only
      split
      · rw [if_pos (.inr ‹_›)]
        exact .of_keeps (.corrupt hw)
      · rw [if_neg (by simp [*])]
        obtain ⟨mode, G, p, h⟩ := stands_enter hc hargs
        exact traced_run ⟨hH, hcall⟩ (fun _ _ _ hw' hc' hargs' => ih hw' hc' hargs') _ hw h
          (Nat.le_add_left _ _)

end TreeMachine.Machine
