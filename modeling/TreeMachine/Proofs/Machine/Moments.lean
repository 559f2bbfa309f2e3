import TreeMachine.Proofs.Machine.Step

/-!
# The moments of a run

A *moment* is a frame that is about to carry out an instruction, with the store as it is then. The
moments of a run are those of all its frames, in order: the frame of the function that is called, and
those of the closures that code calls from it.

* **`Moment.Sound`** says what holds at every moment of a run of compiled code.
* **`Chain`** puts moments in order, each with the cells that are shown then.
* **`Traced`** is `Exec.Keeps` together with the moments of the execution.
-/

namespace TreeMachine

namespace Machine

structure Moment where
  frame : Frame
  store : Store

namespace Moment

abbrev function (m : Moment) : Function := m.frame.closure.function

def instruction? (m : Moment) : Option Instruction :=
  match m.function.chunk.code[m.frame.ip]? with
  | some b => (Instruction.fetch m.function.chunk m.frame.ip b).toOption.map (·.1)
  | none => none

end Moment

/-- What is on the stack of a frame that calls a delegate: the delegate and the arguments. -/
def callee (f : Frame) (args : Nat) : Exec (Value × List Value) := do
  let (values, f) ← f.popN args
  let (fn, _) ← f.pop
  return (fn, values)

/-- The closure in code that a call with so many arguments enters, and the arguments. -/
def entered? (f : Frame) (args : Nat) (s : Store) : Option (Closure × List Value) :=
  match callee f args s with
  | .ok (fn, values) s =>
    match s.delegate? fn with
    | some (.compiled c) => some (c, values)
    | _ => none
  | .error _ _ => none

def enteredMoments (nested : Closure → List Value → Store → List Moment) (f : Frame) (args : Nat)
    (s : Store) : List Moment :=
  match entered? f args s with
  | some (c, values) => nested c values s
  | none => []

/-- The moments of what an instruction calls, if it calls a closure in code. -/
def innerMoments (nested : Closure → List Value → Store → List Moment) (m : Moment) : List Moment :=
  match m.instruction? with
  | some (.invoke args _) => enteredMoments nested m.frame args m.store
  | _ => []

def followingMoments (rest : Frame → Store → List Moment) : EStateM.Result Abort Store Progress → List Moment
  | .ok (.next f) s => rest f s
  | _ => []

def runMoments (ctx : Context) (nested : Closure → List Value → Store → List Moment) :
    (n : Nat) → Frame → Store → List Moment
  | 0, _, _ => []
  | n + 1, f, s =>
    match f.closure.function.chunk.code[f.ip]? with
    | none => []
    | some b =>
      let next : Exec Progress := do
        located f.closure.function.name f.ip b (checkDepth f)
        located f.closure.function.name f.ip b (advance ctx f b)
      ⟨f, s⟩ :: (innerMoments nested ⟨f, s⟩ ++ followingMoments (runMoments ctx nested n) (next s))

def callMoments (H : Host) (call : Caller) : (n : Nat) → Closure → List Value → Store → List Moment
  | 0, _, _, _ => []
  | n + 1, c, args, s =>
    if args.length ≠ c.function.arity ∨ c.function.locals < 0 then []
    else
      let ctx : Context := { host := H, call := call, enter := callClosure H call n }
      runMoments ctx (callMoments H call n) c.function.chunk.code.size (Frame.enter c args) s

namespace Moment

/-- The cell that the instruction makes for a variable, once the content is copied. -/
def made? (U : Universe) (m : Moment) : Option Loc :=
  match m.instruction? with
  | some (.makeCell slot) =>
    (m.frame.locals[slot]?.filter m.store.nests).map fun v => (Store.newCell U v.type v m.store).1
  | _ => none

/-- The content of a slot or capture that the instruction pushes as it is. -/
def loaded? (m : Moment) : Option Value :=
  match m.instruction? with
  | some (.loadLocal slot) => m.frame.locals[slot]?
  | some (.loadFree index) => m.frame.closure.free[index]?
  | _ => none

structure Sound (m : Moment) : Prop where
  depth : m.function.chunk.DepthAt m.frame.ip m.frame.stack.size
  bound : (m.frame.stack.size : Int) ≤ m.function.maxStack
  fetched : ∃ i, m.instruction? = some i ∧ i.effect.pop ≤ m.frame.stack.size
  slot : ∀ {slot}, m.instruction? = some (.loadCell slot) ∨ m.instruction? = some (.storeCell slot) →
    ∃ v, m.frame.locals[slot]? = some v ∧ v.IsCell
  free : ∀ {i}, m.instruction? = some (.loadFreeCell i) ∨ m.instruction? = some (.storeFreeCell i) →
    ∃ v, m.frame.closure.free[i]? = some v ∧ v.IsCell
  captured : ∀ {j fn k}, m.instruction? = some (.closure j) → m.frame.closure.image[j]? = some fn →
    k ∈ fn.captures → ∃ i : Nat, k.index = i ∧
      (k.source = .slotCell → ∃ v, m.frame.locals[i]? = some v ∧ v.IsCell) ∧
      (k.source = .freeCell → ∃ v, m.frame.closure.free[i]? = some v ∧ v.IsCell)

/-- What holds of the cells at a moment: what is pushed as it is refers to shown cells only, and a cell is
made behind those that there are. -/
structure Hidden (shown : Loc → Prop) (m : Moment) : Prop where
  loaded : ∀ {v}, m.loaded? = some v → v.Plain shown
  made : ∀ {U loc}, m.made? U = some loc → loc = m.store.cells.size

theorem loaded?_of_made? {U : Universe} {m : Moment} {loc : Loc} (h : m.made? U = some loc) : m.loaded? = none := by
  unfold made? at h
  unfold loaded?
  split at h
  · rename_i hi
    simp only [hi]
  · cases h

end Moment

/-! ## Moments in order -/

/-- The moments of an execution from one world to another, each with the world then. The cell that an
instruction makes stays hidden. -/
inductive Chain : World → List Moment → World → Prop
  | nil {w w' : World} : w'.Extends w → Chain w [] w'
  | cons {w w₁ w₂ w' : World} {m : Moment} {ms : List Moment} : w₁.Extends w → w₁.store = m.store →
    w₁.Sound → m.Sound → m.Hidden w₁.shown → w₂.Extends w₁ →
    (∀ {U loc}, m.made? U = some loc → w₂.Hides w₁) → Chain w₂ ms w' → Chain w (m :: ms) w'

namespace Chain

variable {w w₁ w' : World} {ms ms' : List Moment}

theorem extended (h : Chain w ms w') : w'.Extends w := by
  induction h with
  | nil hext => exact hext
  | cons hext _ _ _ _ hext₂ _ _ ih => exact (hext.trans hext₂).trans ih

theorem earlier (hext : w₁.Extends w) (h : Chain w₁ ms w') : Chain w ms w' := by
  cases h with
  | nil hext' => exact .nil (hext.trans hext')
  | cons hext' hs hw hm hh hext₂ hmade hrest => exact .cons (hext.trans hext') hs hw hm hh hext₂ hmade hrest

theorem append (h : Chain w ms w₁) (h' : Chain w₁ ms' w') : Chain w (ms ++ ms') w' := by
  induction h with
  | nil hext => exact h'.earlier hext
  | cons hext hs hw hm hh hext₂ hmade _ ih => exact .cons hext hs hw hm hh hext₂ hmade (ih h')

theorem later (h : Chain w ms w₁) (hext : w'.Extends w₁) : Chain w ms w' := by
  rw [← List.append_nil ms]
  exact h.append (.nil hext)

theorem sound (h : Chain w ms w') : ∀ m ∈ ms, m.Sound := by
  induction h with
  | nil _ => exact List.forall_mem_nil _
  | cons _ _ _ hm _ _ _ _ ih => exact List.forall_mem_cons.2 ⟨hm, ih⟩

theorem made_ge (h : Chain w ms w') {U : Universe} : ∀ m ∈ ms, ∀ loc, m.made? U = some loc →
    w.store.cells.size ≤ loc := by
  induction h with
  | nil _ => exact fun m hm => nomatch hm
  | cons hext hs _ _ hh hext₂ _ _ ih =>
    intro m hmem loc hloc
    rcases List.mem_cons.1 hmem with rfl | hmem
    · rw [hh.made hloc, ← hs]
      exact hext.cells
    · exact Nat.le_trans (hext.trans hext₂).cells (ih m hmem loc hloc)

/-- The cells that are pushed in an execution are shown at its start or new. -/
theorem loaded_shown (h : Chain w ms w') : ∀ m ∈ ms, ∀ v loc, m.loaded? = some v →
    v.datum = .cell loc → w.shown loc ∨ w.store.cells.size ≤ loc := by
  induction h with
  | nil _ => exact fun m hm => nomatch hm
  | cons hext _ _ _ hh hext₂ _ _ ih =>
    intro m hmem v loc hv hloc
    rcases List.mem_cons.1 hmem with rfl | hmem
    · exact hext.fresh loc (hh.loaded hv loc hloc)
    · have hext := hext.trans hext₂
      rcases ih m hmem v loc hv hloc with hshown | hsize
      · exact hext.fresh loc hshown
      · exact .inr (Nat.le_trans hext.cells hsize)

theorem made_hidden (h : Chain w ms w') {U : Universe} : ∀ m ∈ ms, ∀ loc, m.made? U = some loc → ¬w'.shown loc := by
  induction h with
  | nil _ => exact fun m hm => nomatch hm
  | cons _ hs _ _ hh _ hmade hrest ih =>
    intro m hmem loc hloc hshown
    rcases List.mem_cons.1 hmem with rfl | hmem
    · obtain ⟨hsize, hhidden⟩ := hmade hloc
      rw [hh.made hloc, ← hs] at hshown
      rcases hrest.extended.fresh _ hshown with hshown | hge
      · exact hhidden hshown
      · exact Nat.lt_irrefl _ (Nat.lt_of_lt_of_le hsize hge)
    · exact ih m hmem loc hloc hshown

/-- **No cell that is made in an execution is pushed in it**, be it before or after it is made. -/
theorem loaded_ne_made (h : Chain w ms w') {U : Universe} : ∀ m ∈ ms, ∀ m' ∈ ms, ∀ loc v,
    m.made? U = some loc → m'.loaded? = some v → v.datum ≠ .cell loc := by
  induction h with
  | nil _ => exact fun m hm => nomatch hm
  | @cons w w₁ w₂ w' m₀ ms hext hs hw _ hh hext₂ hmade hrest ih =>
    intro m hm m' hm' loc v hloc hv hcell
    rcases List.mem_cons.1 hm with rfl | hmem <;> rcases List.mem_cons.1 hm' with rfl | hmem'
    · rw [Moment.loaded?_of_made? hloc] at hv
      cases hv
    · -- made before: the cell is hidden, and no longer new
      obtain ⟨hsize, hhidden⟩ := hmade hloc
      rw [hh.made hloc, ← hs] at hcell
      rcases hrest.loaded_shown m' hmem' v _ hv hcell with hshown | hge
      · exact hhidden hshown
      · omega
    · -- made later: the cell that was pushed existed before
      have hlt := hw.range loc (hh.loaded hv loc hcell)
      have hge := hrest.made_ge m hmem loc hloc
      exact Nat.lt_irrefl _ (Nat.lt_of_lt_of_le hlt (Nat.le_trans hext₂.cells hge))
    · exact ih m hmem m' hmem' loc v hloc hv hcell

end Chain

/-! ## Executions with their moments -/

section

variable {α β : Type} {w : World} {x : Exec α} {ms : List Moment} {Q : World → α → Prop}

/-- The execution keeps a world sound, and `ms` are moments of it. -/
def Traced (w : World) (x : Exec α) (ms : List Moment) (Q : World → α → Prop) : Prop :=
  Exec.Ends w x (Chain w ms) Q

namespace Traced

theorem of_keeps (h : Exec.Keeps w x Q) : Traced w x [] Q :=
  Exec.Ends.imp h (fun _ => .nil) fun _ _ _ _ hq => hq

theorem keeps (h : Traced w x ms Q) : Exec.Keeps w x Q :=
  Exec.Ends.imp h (fun _ => Chain.extended) fun _ _ _ _ hq => hq

theorem get_bind {f : Store → Exec α} (h : Traced w (f w.store) ms Q) : Traced w (get >>= f) ms Q := h

protected theorem bind {f : α → Exec β} {R : World → β → Prop} (hx : Traced w x ms Q)
    (hf : ∀ w' a, w'.Extends w → w'.Sound → Q w' a → Exec.Keeps w' (f a) R) : Traced w (x >>= f) ms R :=
  Exec.Ends.bind hx (fun _ hp => hp) fun w' a hchain hw hq =>
    Exec.Ends.imp (hf w' a hchain.extended hw hq) (fun _ => hchain.later) fun _ _ _ _ hr => hr

theorem located (h : Traced w x ms Q) (function : String) (ip : Nat) (b : UInt8) :
    Traced w (Machine.located function ip b x) ms Q := by
  refine Exec.Ends.mapError (fun e => ?_) h
  split
  · rfl
  · rfl

end Traced

end

end Machine

end TreeMachine
