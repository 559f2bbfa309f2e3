import TreeMachine.Proofs.Codegen.WellFormed
import TreeMachine.Proofs.Machine.Run

/-!
# Calls from the host

Whatever a host calls, be it an artifact or a delegate, keeps worlds sound if the routines of the host do
(`safe_callDelegate`). So compiled code never fails for a check of the machine, and at every moment of
its runs the operand stack is as deep as recorded (`Compiler.behaves`).
-/

namespace TreeMachine

open Exec (Keeps KeepsPlain)
open Machine

namespace Machine

variable {H : Host} {call : Caller} {w : World} {c : Closure} {args : List Value}

/-! ## Closures -/

theorem Traced.recovering {α : Type} {x : Exec α} {ms : List Moment} {Q : World → α → Prop}
    (h : Traced w x ms Q) (name : String) : Traced w (Machine.recovering name x) ms Q := by
  rcases h.cases with ⟨a, w', hres, hchain, hw, hq⟩ | ⟨e, w', hres, hchain, hw, he⟩
  · exact .of_ok (by rw [Machine.recovering, hres]) rfl hchain hw hq
  · cases e with
    | error | endless => exact .of_error (by rw [Machine.recovering, hres]) rfl hchain hw he
    | panic p =>
      refine .of_error (e := .error (.atInstruction name (-1) Opcode.nop.byte (.recovered p))) ?_ rfl
        hchain hw he
      rw [Machine.recovering, hres]

theorem traced_invokeClosure (hH : H.Safe) (hcall : Caller.Safe call) (hw : w.Sound)
    (hc : c.Sound w.shown) (hargs : ∀ v ∈ args, v.Plain w.shown) :
    Traced w (invokeClosure H call c args) (callMoments H call maxCallDepth c args w.store) fun w' v =>
      v.Plain w'.shown :=
  (traced_callClosure hH hcall maxCallDepth hw hc hargs).recovering _

/-- The moments of an execution that begins with another one, which has none. -/
def momentsAfter {α : Type} (x : Exec α) (moments : α → Store → List Moment) (s : Store) : List Moment :=
  match x s with
  | .ok a s => moments a s
  | .error _ _ => []

theorem Traced.after {α β : Type} {x : Exec α} {f : α → Exec β} {moments : α → Store → List Moment}
    {Q : World → α → Prop} {R : World → β → Prop} (hx : Keeps w x Q)
    (hf : ∀ w' a, w'.Extends w → w'.Sound → Q w' a → Traced w' (f a) (moments a w'.store) R) :
    Traced w (x >>= f) (momentsAfter x moments w.store) R := by
  rcases hx.cases with ⟨a, w', hres, hext, hw', hq⟩ | ⟨e, w', hres, hext, hw', he⟩
  · have hnext := (hf w' a hext hw' hq).imp (fun _ => Chain.earlier hext) fun _ _ _ _ hr => hr
    unfold Traced Exec.Ends momentsAfter at *
    rwa [EStateM.bind_of_ok hres, hres]
  · refine .of_error (EStateM.bind_of_error hres) rfl ?_ hw' he
    rw [momentsAfter, hres]
    exact .nil hext

def hostMoments (H : Host) (call : Caller) (c : Closure) (args : List Value) : Store → List Moment :=
  momentsAfter (Exec.cloneAll args) fun values => callMoments H call maxCallDepth c values

theorem traced_callFromHost (hH : H.Safe) (hcall : Caller.Safe call) (hw : w.Sound)
    (hc : c.Sound w.shown) (hargs : ∀ v ∈ args, v.Plain w.shown) :
    Traced w (callFromHost H call c args) (hostMoments H call c args w.store) fun w' v =>
      v.Plain w'.shown :=
  .after (.of_agrees (.cloneAll hargs) hw) fun _ _ hext hw' hvalues =>
    traced_invokeClosure hH hcall hw' (hc.mono hext.shown) hvalues

end Machine

/-! ## Delegates -/

theorem safe_callDelegate {H : Host} (hH : H.Safe) (n : Nat) : Caller.Safe (callDelegate H n) := by
  induction n with
  | zero =>
    intro w d args hw _ _
    exact .panic hw rfl
  | succ n ih =>
    intro w d args hw hd hargs
    cases d with
    | compiled c => exact (traced_callFromHost hH ih hw hd hargs).keeps
    | evaluated l name env maxDepth => exact Walk.keepsPlain_callFromHost hH ih maxDepth hw hd hargs
    | host name routine =>
      refine .of_agrees ((Correspondence.Relates.found routine).seq fun w' r hext _ => ?_) hw
      exact Correspondence.agrees_run (hH.routines ih) (.host r) Value.plain_nil
        (Correspondence.PassesAll.later hargs hext)

/-! ## Artifacts -/

namespace Artifact


variable {H : Host} {call : Caller} {a : Artifact} {w : World} {args : List Value}

def closure (a : Artifact) : Closure := { image := a.image, function := a.main, verify := a.verify }

def moments (H : Host) (call : Caller) (a : Artifact) (args : List Value) (s : Store) : List Moment :=
  if args.length ≠ a.params.length then []
  else
    momentsAfter (arguments H.types 0 args a.params)
      (fun values => callMoments H call maxCallDepth a.closure values) s

theorem traced_call (hH : H.Safe) (hcall : Caller.Safe call) (hw : w.Sound)
    (ha : a.closure.Sound w.shown) (hargs : ∀ v ∈ args, v.Plain w.shown) :
    Traced w (a.call H call args) (a.moments H call args w.store) fun w' v => v.Plain w'.shown := by
  unfold Artifact.call moments
  split
  · exact .of_keeps (.fail hw rfl)
  · exact .after (.of_agrees (agrees_arguments H.types 0 a.params hargs) hw) fun _ _ hext hw' hvalues =>
      traced_invokeClosure hH hcall hw' (ha.mono hext.shown) hvalues

end Artifact

/-! ## What calls do -/

namespace Machine

/-- A call in a world, with its moments and its result. -/
structure Behaves (U : Universe) (w : World) (ms : List Moment)
    (result : EStateM.Result Abort Store Value) : Prop where
  sound : ∀ m ∈ ms, m.Sound
  /-- What is pushed as it is refers to no cell that was hidden before the call, -/
  shown : ∀ m ∈ ms, ∀ v loc, m.loaded? = some v → v.datum = .cell loc →
    w.shown loc ∨ w.store.cells.size ≤ loc
  /-- and to none that is made in it. -/
  hidden : ∀ m ∈ ms, ∀ m' ∈ ms, ∀ loc v, m.made? U = some loc → m'.loaded? = some v →
    v.datum ≠ .cell loc
  /-- No check of the machine fails, and what was made stays hidden after the call. -/
  ends : ∃ w' : World, w'.Sound ∧ w'.Extends w ∧ (∀ m ∈ ms, ∀ loc, m.made? U = some loc → ¬w'.shown loc) ∧
    ((∃ v, result = .ok v w'.store ∧ v.Plain w'.shown) ∨
      ∃ e, result = .error e w'.store ∧ e.isCheck = false)

theorem Traced.behaves {w : World} {x : Exec Value} {ms : List Moment} (U : Universe)
    (h : Traced w x ms fun w' v => v.Plain w'.shown) : Behaves U w ms (x w.store) := by
  obtain ⟨w', hchain, hw', hresult⟩ : ∃ w', Chain w ms w' ∧ w'.Sound ∧
      ((∃ v, x w.store = .ok v w'.store ∧ v.Plain w'.shown) ∨
        ∃ e, x w.store = .error e w'.store ∧ e.isCheck = false) := by
    rcases h.cases with ⟨v, w', hres, hchain, hw', hv⟩ | ⟨e, w', hres, hchain, hw', he⟩
    · exact ⟨w', hchain, hw', .inl ⟨v, hres, hv⟩⟩
    · exact ⟨w', hchain, hw', .inr ⟨e, hres, he⟩⟩
  exact ⟨hchain.sound, hchain.loaded_shown, hchain.loaded_ne_made, w', hw', hchain.extended,
    hchain.made_hidden, hresult⟩

end Machine

def Function.cellFree (f : Function) : Bool :=
  f.chunk.constants.toList.all fun
    | .value ⟨_, .cell _⟩ => false
    | _ => true

theorem Function.plain_of_cellFree {f : Function} (h : f.cellFree = true) (shown : Loc → Prop) : f.Plain shown := by
  intro v hv loc hloc
  have hcell := List.all_eq_true.1 h _ (Array.mem_toList_iff.2 hv)
  obtain ⟨t, d⟩ := v
  obtain rfl : d = .cell loc := hloc
  cases hcell

namespace Compiler

variable {U : Universe} {options : Options} {root : Lambda} {shape : Shape} {a : Artifact}

theorem closure_sound (hU : U.Declared) (hroot : root.toExpr.Checked U) (hv : root.toExpr.Valued)
    (h : compile U options (some root) shape = .ok a) {shown : Loc → Prop}
    (hplain : ∀ g, g = a.main ∨ g ∈ a.image → g.Plain shown) : a.closure.Sound shown where
  compiled := ⟨U, options, root, shape, a, hU, hroot, hv, h, rfl, .inl rfl⟩
  constants := hplain
  free := by
    have hcaptures : a.closure.function.captures = [] := (compile_certified hU hroot hv h).2
    rw [hcaptures]
    exact .nil

/-- **The recorded stack is the real one.** Whenever code that is compiled with depths is about to carry out an
instruction, be it in a call of the artifact or of a closure that the host calls back, the operand stack is as
deep as recorded there. So no check of the machine fails; cells are where the code needs them, and none that it
makes is pushed as a value. -/
theorem call_behaves (hU : U.Declared) (hn : U.NonVoid) (hroot : root.toExpr.Checked U)
    (hrecord : options.recordDepths = true) (h : compile U options (some root) shape = .ok a)
    {H : Host} (hH : H.Safe) (n : Nat) {w : World} (hw : w.Sound)
    (hplain : ∀ g, g = a.main ∨ g ∈ a.image → g.Plain w.shown) {args : List Value}
    (hargs : ∀ v ∈ args, v.Plain w.shown) :
    (∀ g, g = a.main ∨ g ∈ a.image → g.chunk.depths.isSome) ∧
    Machine.Behaves H.types w (a.moments H (callDelegate H n) args w.store)
      (a.call H (callDelegate H n) args w.store) ∧
    ∀ (w' : World) (c : Closure) (values : List Value), w'.Sound → c.Sound w'.shown →
      (∀ v ∈ values, v.Plain w'.shown) →
      Machine.Behaves H.types w' (hostMoments H (callDelegate H n) c values w'.store)
        (callFromHost H (callDelegate H n) c values w'.store) := by
  have hv : root.toExpr.Valued := hn.valued hroot
  have hcall : Caller.Safe (callDelegate H n) := safe_callDelegate hH n
  refine ⟨fun g hg => ?_, ?_, fun w' c values hw' hc hvalues => ?_⟩
  · obtain ⟨hfinished, -⟩ := compile_certified hU hroot hv h
    rcases hg with rfl | hg
    · exact hfinished.recorded.trans hrecord
    · exact (hfinished.depths g hg).trans hrecord
  · exact (Artifact.traced_call hH hcall hw (closure_sound hU hroot hv h hplain) hargs).behaves _
  · exact (traced_callFromHost hH hcall hw' hc hvalues).behaves _

def counterHost : Host := { types := counterTypes, routines := #[(Script.inc "n").routine] }

theorem counterHost_safe : counterHost.Safe := by
  have hscripts : counterHost.routines.toList = [Script.inc "n"].map Script.routine := rfl
  exact safe_of_scripts hscripts (List.forall_mem_singleton.2 (.node nofun nofun))

/-- The counter makes a cell for its parameter and goes through 22 moments, two of them in its closure. -/
theorem counter_behaves : ∃ a,
    compile counterTypes .debug (some counter) ⟨[some .int32], some .int32⟩ = .ok a ∧
      (a.moments counterHost (callDelegate counterHost 1) [.ofInt32 5] {}).map
          (fun m => (m.frame.ip, m.made? counterTypes)) =
        (0, some 0) :: [2, 3, 5, 8, 9, 11, 12, 14, 17, 18, 19, 21, 22, 24, 27, 28, 36, 38, 0, 2,
          41].map (·, none) ∧
      Machine.Behaves counterTypes ⟨{}, fun _ => False⟩
        (a.moments counterHost (callDelegate counterHost 1) [.ofInt32 5] {})
        (a.call counterHost (callDelegate counterHost 1) [.ofInt32 5] {}) := by
  have hrun : (compile counterTypes .debug (some counter) ⟨[some .int32], some .int32⟩).toOption.map
      (fun a => ((a.main :: a.image.toList).all Function.cellFree,
        (a.moments counterHost (callDelegate counterHost 1) [.ofInt32 5] {}).map
          (fun m => (m.frame.ip, m.made? counterTypes)))) =
      some (true, (0, some 0) :: [2, 3, 5, 8, 9, 11, 12, 14, 17, 18, 19, 21, 22, 24, 27, 28, 36, 38, 0,
        2, 41].map (·, none)) := by decide +kernel
  obtain ⟨a, ha, heq⟩ := Except.exists_ok_of_map hrun
  obtain ⟨hfree, hmoments⟩ := Prod.mk.inj heq
  have hplain : ∀ g, g = a.main ∨ g ∈ a.image → g.Plain fun _ => False := fun g hg =>
    Function.plain_of_cellFree (List.all_eq_true.1 hfree g (by simpa using hg)) _
  exact ⟨a, ha, hmoments, (call_behaves counterTypes_declared (by decide) counter_checked rfl ha
    counterHost_safe 1 World.sound_empty hplain (by simp)).2.1⟩

end Compiler

end TreeMachine
