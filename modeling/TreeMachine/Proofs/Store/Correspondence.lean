import TreeMachine.Proofs.Store.Bounds
import TreeMachine.Proofs.Store.Delegates
import TreeMachine.Proofs.Store.Operations

/-!
# Executions side by side

Two executions that go through the same operations keep whatever the operations keep. A *correspondence* is
something to keep: pairs of stores that differ in delegates only, and values that may be passed on.

* **`Correspondence`** says in which stores, values and delegates it consists, and how it may change on the
  way. Its laws are about single changes of a store.
* **`Correspondence.Relates`** says of two executions that they keep it and end in the same way.
  `Correspondence.Agrees` is the case of equal results.

The rules in this file relate executions that are put together from related ones.
-/

namespace TreeMachine

open Exec Store

/-! ## Failures of the checks of the machine -/

/-- The panics that the machine raises on code that makes no sense. -/
def Panic.isCheck : Panic → Bool
  | stackUnderflow | truncatedCode | invalidConstant => true
  | host _ | corrupt => false

def Cause.isCheck : Cause → Bool
  | stackMismatch _ _ | invalidConstant | unknownOpcode _ | truncatedCode => true
  | _ => false

def Error.isCheck : Error → Bool
  | plain c => c.isCheck
  | recovered p => p.isCheck
  | inMethod _ e | atArgument _ e | atInstruction _ _ _ e | atNode _ _ e => isCheck e

def Abort.isCheck : Abort → Bool
  | error e => e.isCheck
  | panic p => p.isCheck
  | endless => false

/-! ## Correspondences -/

structure Correspondence where
  /-- The states that the executions go through, in the order of `Later`. -/
  World : Type
  Later : World → World → Prop
  Stores : World → Store → Store → Prop
  /-- The values that executions may pass on and store. -/
  Passes : World → Value → Prop
  Delegates : World → Delegate → Delegate → Prop
  /-- Executions do not fail for a check of the machine. -/
  Strict : Prop
  /-- Executions go on forever only where a struct lies inside itself. -/
  Ending : Prop
  refl (w : World) : Later w w
  trans {w w' w'' : World} : Later w w' → Later w' w'' → Later w w''
  passes_later {w w' : World} {v : Value} : Later w w' → Passes w v → Passes w' v
  restricts (w : World) : RestrictsCells (Passes w)
  /-- The type that a value is held at plays no part. -/
  retype {w : World} {v : Value} {t : Option Ty} : Passes w v → Passes w { v with type := t }
  twins {w : World} {s t : Store} : Stores w s t → s.Twins t
  holds {w : World} {s t : Store} : Stores w s t → s.Holds (Passes w)
  delegate {w : World} {s t : Store} (v : Value) : Stores w s t →
    Option.Rel (Delegates w) (s.delegate? v) (t.delegate? v)
  /-- Values that may be passed on are written, and storage is added. -/
  change {w : World} {s t : Store} {α : Type} {f : Store → α × Store} : Stores w s t → Store.Blind f →
    (f s).2.Holds (Passes w) → s.cells.size ≤ (f s).2.cells.size → ∃ w', Later w w' ∧ Stores w' (f s).2 (f t).2
  addDelegate {w : World} {s t : Store} {d d' : Delegate} : Stores w s t → Delegates w d d' →
    (t.addDelegate d').1 = (s.addDelegate d).1 ∧
      ∃ w', Later w w' ∧ Stores w' (s.addDelegate d).2 (t.addDelegate d').2

namespace Correspondence

variable {K : Correspondence} {w w' : K.World} {α β γ δ : Type} {R R' : K.World → α → β → Prop}
  {S : K.World → γ → δ → Prop} {P : K.World → α → Prop} {x : Exec α} {y : Exec β} {v : Value}

theorem passes_plain (h : v.cell? = none) : K.Passes w v := by
  refine K.restricts w v fun loc hloc => ?_
  rw [Value.cell?, hloc] at h
  cases h

/-- Both ends are successes with related results, or the same failure, and the correspondence is kept. -/
inductive Ends (K : Correspondence) (w : K.World) (R : K.World → α → β → Prop) :
    EStateM.Result Abort Store α → EStateM.Result Abort Store β → Prop
  | ok {w' : K.World} {a : α} {b : β} {s t : Store} (later : K.Later w w') (stores : K.Stores w' s t)
    (results : R w' a b) : Ends K w R (.ok a s) (.ok b t)
  | error {w' : K.World} {e : Abort} {s t : Store} (later : K.Later w w') (stores : K.Stores w' s t)
    (cause : K.Strict → e.isCheck = false) (loops : K.Ending → e = .endless → s.Loops) : Ends K w R (.error e s)
      (.error e t)

/-- The executions keep the correspondence from `w` on, and end in the same way with related results. -/
def Relates (K : Correspondence) (w : K.World) (R : K.World → α → β → Prop) (x : Exec α) (y : Exec β) : Prop :=
  ∀ ⦃w' : K.World⦄, K.Later w w' → ∀ ⦃s t : Store⦄, K.Stores w' s t → K.Ends w' R (x s) (y t)

/-- The executions keep the correspondence and end in the same way, with a result of which `P` is known. -/
abbrev Agrees (K : Correspondence) (w : K.World) (P : K.World → α → Prop) (x y : Exec α) : Prop :=
  K.Relates w (fun w a b => b = a ∧ P w a) x y

theorem Ends.imp {r : EStateM.Result Abort Store α} {r' : EStateM.Result Abort Store β} (h : K.Ends w' R r r')
    (hw : K.Later w w') (hR : ∀ w'' a b, K.Later w w'' → R w'' a b → R' w'' a b) : K.Ends w R' r r' := by
  cases h with
  | ok hlater hst hab => exact .ok (K.trans hw hlater) hst (hR _ _ _ (K.trans hw hlater) hab)
  | error hlater hst he hloops => exact .error (K.trans hw hlater) hst he hloops

namespace Relates

theorem later (h : K.Relates w R x y) (hw : K.Later w w') : K.Relates w' R x y :=
  fun _ hw' _ _ hst => h (K.trans hw hw') hst

theorem imp (h : K.Relates w R x y) (hR : ∀ w' a b, K.Later w w' → R w' a b → R' w' a b) : K.Relates w R' x y :=
  fun w' hw _ _ hst => (h hw hst).imp (K.refl w') fun _ _ _ hw' => hR _ _ _ (K.trans hw hw')

protected theorem bind {f : α → Exec γ} {g : β → Exec δ} (h : K.Relates w R x y)
    (hf : ∀ w' a b, K.Later w w' → R w' a b → K.Relates w' S (f a) (g b)) : K.Relates w S (x >>= f) (y >>= g) := by
  intro w₁ hw₁ s t hst
  have hxy := h hw₁ hst
  generalize hx : x s = r at hxy
  generalize hy : y t = r' at hxy
  cases hxy with
  | @ok w₂ a b s' t' hw₂ hst₂ hab =>
    rw [EStateM.bind_of_ok hx, EStateM.bind_of_ok hy]
    exact (hf w₂ a b (K.trans hw₁ hw₂) hab (K.refl w₂) hst₂).imp hw₂ fun _ _ _ _ h => h
  | error hw₂ hst₂ he hloops =>
    rw [EStateM.bind_of_error hx, EStateM.bind_of_error hy]
    exact .error hw₂ hst₂ he hloops

theorem seq {y : Exec α} {f : α → Exec γ} {g : α → Exec δ} (h : K.Agrees w P x y)
    (hf : ∀ w' a, K.Later w w' → P w' a → K.Relates w' S (f a) (g a)) : K.Relates w S (x >>= f) (y >>= g) := by
  refine h.bind fun w' a b hw hab => ?_
  obtain ⟨rfl, ha⟩ := hab
  exact hf w' b hw ha

protected theorem pure {a : α} {b : β} (h : ∀ w', K.Later w w' → R w' a b) : K.Relates w R (pure a) (pure b) :=
  fun w' hw _ _ hst => .ok (K.refl w') hst (h w' hw)

theorem value (h : K.Passes w v) : K.Agrees w K.Passes (Pure.pure v) (Pure.pure v) :=
  .pure fun _ hw => ⟨rfl, K.passes_later hw h⟩

theorem plain (h : v.cell? = none) : K.Agrees w K.Passes (Pure.pure v) (Pure.pure v) :=
  value (passes_plain h)

theorem result (a : α) : K.Agrees w (fun _ _ => True) (Pure.pure a) (Pure.pure a) := .pure fun _ _ => ⟨rfl, trivial⟩

theorem throw {e : Abort} (h : K.Strict → e.isCheck = false) (he : K.Ending → e ≠ .endless) :
    K.Relates w R (throw e) (throw e) :=
  fun w' _ _ _ hst => .error (K.refl w') hst h fun hK heq => absurd heq (he hK)

theorem fail {c : Cause} (h : c.isCheck = false) : K.Relates w R (fail c) (fail c) :=
  throw (fun _ => h) fun _ => Abort.noConfusion

theorem panic {p : Panic} (h : K.Strict → p.isCheck = false) : K.Relates w R (panic p) (panic p) :=
  throw h fun _ => Abort.noConfusion

theorem corrupt : K.Relates w R corrupt corrupt := panic fun _ => rfl

protected theorem ite {c : Prop} [Decidable c] {x' : Exec α} {y' : Exec β} (h : c → K.Relates w R x y)
    (h' : ¬c → K.Relates w R x' y') : K.Relates w R (if c then x else x') (if c then y else y') := by
  split
  · exact h ‹_›
  · exact h' ‹_›

theorem get_bind {f : Store → Exec γ} {g : Store → Exec δ}
    (h : ∀ w' s t, K.Later w w' → K.Stores w' s t → K.Relates w' S (f s) (g t)) :
    K.Relates w S (get >>= f) (get >>= g) :=
  fun w' hw s t hst => h w' s t hw hst (K.refl w') hst

theorem mapError (h : K.Relates w R x y) (f : Error → Error) (hf : ∀ e, (f e).isCheck = e.isCheck) :
    K.Relates w R (Exec.mapError f x) (Exec.mapError f y) := by
  intro w' hw s t hst
  have hxy := h hw hst
  generalize hx : x s = r at hxy
  generalize hy : y t = r' at hxy
  unfold Exec.mapError
  rw [hx, hy]
  cases hxy with
  | ok hlater hst' hab => exact .ok hlater hst' hab
  | @error w' e s' t' hlater hst' he hloops =>
    cases e with
    | error e => exact .error hlater hst' (fun hs => (hf e).trans (he hs)) nofun
    | panic p => exact .error hlater hst' he nofun
    | endless => exact .error hlater hst' he hloops

theorem getSome {o : Option α} (h : ∀ w' a, K.Later w w' → o = some a → P w' a) :
    K.Agrees w P (getSome o) (getSome o) := by
  cases o with
  | some a => exact .pure fun w' hw => ⟨rfl, h w' a hw rfl⟩
  | none => exact corrupt

theorem found (o : Option α) : K.Agrees w (fun _ _ => True) (Exec.getSome o) (Exec.getSome o) :=
  getSome fun _ _ _ _ => trivial

/-! ## Operations -/

theorem step {f : Store → α × Store} (hblind : Store.Blind f) (h : ∀ w' s, K.Later w w' → s.Holds (K.Passes w') →
      (f s).2.Holds (K.Passes w') ∧ s.cells.size ≤ (f s).2.cells.size ∧ P w' (f s).1)
    (hP : ∀ {w' w'' a}, K.Later w' w'' → P w' a → P w'' a) : K.Agrees w P (step f) (step f) := by
  intro w₁ hw₁ s t hst
  obtain ⟨hholds, hcells, hp⟩ := h w₁ s hw₁ (K.holds hst)
  obtain ⟨w₂, hw₂, hst₂⟩ := K.change hst hblind hholds hcells
  refine .ok hw₂ hst₂ ⟨?_, hP hw₂ hp⟩
  rw [show t = _ from K.twins hst, hblind s t.delegates]

theorem makes {f : Store → Value × Store} (hblind : Store.Blind f)
    (h : ∀ w' s, K.Later w w' → s.Holds (K.Passes w') → Store.Makes (K.Passes w') s (f s)) :
    K.Agrees w K.Passes (Exec.step f) (Exec.step f) := by
  refine step hblind (fun w' s hw hs => ?_) K.passes_later
  have hmakes := h w' s hw hs
  exact ⟨hmakes.holds, Nat.le_of_eq (congrArg Array.size hmakes.cells).symm, hmakes.value⟩

/-- Both go on, or both go on forever, where twins decide it alike and only structs inside themselves stop them. -/
theorem ending {p : Store → Bool} (htwins : ∀ {s t : Store}, s.Twins t → p t = p s)
    (hloops : ∀ {s : Store}, p s = false → s.Loops) :
    K.Agrees w (fun _ _ => True) (do Exec.ending (p (← get))) (do Exec.ending (p (← get))) := by
  intro w' _ s t hst
  show K.Ends w' _ (Exec.ending (p s) s) (Exec.ending (p t) t)
  rw [htwins (K.twins hst)]
  cases hp : p s with
  | true => exact .ok (K.refl w') hst ⟨rfl, trivial⟩
  | false => exact .error (K.refl w') hst (fun _ => rfl) fun _ _ => hloops hp

theorem nesting (v : Value) : K.Agrees w (fun _ _ => True) (nesting v) (nesting v) :=
  ending (fun h => h.nests v) Store.loops_of_nests

theorem clone (hv : K.Passes w v) : K.Agrees w K.Passes (clone v) (clone v) :=
  (nesting v).seq fun _ _ hw₁ _ => makes (blind_clone v) fun w' _ hw hs =>
    makes_clone (K.restricts w') hs (K.passes_later (K.trans hw₁ hw) hv)

theorem box (hv : K.Passes w v) : K.Agrees w K.Passes (box v) (box v) :=
  (nesting v).seq fun _ _ hw₁ _ => makes (blind_box v) fun w' _ hw hs =>
    makes_box (K.restricts w') hs (K.passes_later (K.trans hw₁ hw) hv)

theorem equal (a b : Value) : K.Agrees w (fun _ _ => True) (equal a b) (equal a b) := by
  refine (ending (fun h => h.compares a b) loops_of_compares).seq fun _ _ _ _ => get_bind fun _ s t _ hst => ?_
  rw [(K.twins hst).equal]
  exact result _

theorem wrap (hv : K.Passes w v) : K.Agrees w K.Passes (Exec.step (wrap v)) (Exec.step (wrap v)) :=
  makes (blind_wrap v) fun w' _ hw hs => makes_wrap (K.restricts w') hs (K.passes_later hw hv)

theorem cloneAll {vs : List Value} (hv : ∀ v ∈ vs, K.Passes w v) :
    K.Agrees w (fun w vs => ∀ v ∈ vs, K.Passes w v) (cloneAll vs) (cloneAll vs) := by
  have hloops : ∀ {s : Store}, vs.all s.nests = false → s.Loops := fun h => by
    obtain ⟨v, -, hv⟩ := List.all_eq_false.1 h
    exact loops_of_nests (by simpa using hv)
  refine (ending (fun h => by rw [funext h.nests]) hloops).seq fun _ _ hw₁ _ => ?_
  refine step (blind_cloneAll vs) (fun w' s hw hs => ?_) fun hw h v hv => K.passes_later hw (h v hv)
  have hall := makesAll_cloneAll (K.restricts w') hs fun v hmem => K.passes_later (K.trans hw₁ hw) (hv v hmem)
  exact ⟨hall.holds, Nat.le_of_eq (congrArg Array.size hall.cells).symm,
    fun v hmem => hall.values v (Array.mem_toList_iff.1 hmem)⟩

theorem newCell (U : Universe) (ty : Option Ty) (hv : K.Passes w v) :
    K.Agrees w (fun _ _ => True) (newCell U ty v) (newCell U ty v) := by
  refine (nesting v).seq fun _ _ hw₁ _ => step (blind_newCell U ty v) (fun w' s hw hs => ?_) fun _ _ => trivial
  obtain ⟨hholds, hsize⟩ := holds_newCell (K.restricts w') U ty hs (K.passes_later (K.trans hw₁ hw) hv)
  exact ⟨hholds, Nat.le_of_lt hsize, trivial⟩

theorem zero (U : Universe) (ty : Ty) : K.Agrees w K.Passes (Exec.step (zero U ty)) (Exec.step (zero U ty)) :=
  makes (blind_zero U ty) fun w' _ _ hs => makes_zero (K.restricts w') U ty hs

theorem newAggregate (U : Universe) (ty : Ty) :
    K.Agrees w K.Passes (Exec.step (newAggregate U ty)) (Exec.step (newAggregate U ty)) :=
  makes (blind_newAggregate U ty) fun w' _ _ hs => makes_newAggregate (K.restricts w') U ty hs

theorem newObject (U : Universe) (ty : Option Ty) :
    K.Agrees w K.Passes (Exec.step (newObject U ty)) (Exec.step (newObject U ty)) :=
  makes (blind_newObject U ty) fun w' _ _ hs => makes_newObject (K.restricts w') U ty hs

theorem newArray (U : Universe) (elem : Ty) (n : Nat) :
    K.Agrees w K.Passes (Exec.step (newArray U elem n)) (Exec.step (newArray U elem n)) :=
  makes (blind_newArray U elem n) fun w' _ _ hs => makes_newArray (K.restricts w') U elem n hs

theorem newArrayOf (elem : Ty) {items : Array Value} (h : ∀ v ∈ items, K.Passes w v) :
    K.Agrees w K.Passes (Exec.step (newArrayOf elem items)) (Exec.step (newArrayOf elem items)) :=
  makes (blind_newArrayOf elem items) fun w' _ hw hs =>
    makes_newArrayOf (K.restricts w') elem hs fun v hv => K.passes_later hw (h v hv)

theorem addDelegate {d d' : Delegate} (h : ∀ w', K.Later w w' → K.Delegates w' d d') :
    K.Agrees w (fun _ _ => True) (Exec.step fun s => s.addDelegate d) (Exec.step fun s => s.addDelegate d') := by
  intro w₁ hw₁ s t hst
  obtain ⟨hloc, w₂, hw₂, hst₂⟩ := K.addDelegate hst (h w₁ hw₁)
  exact .ok hw₂ hst₂ ⟨hloc, trivial⟩

theorem modify {f : Store → Store} (hblind : Store.Blind fun s => ((), f s))
    (h : ∀ w' s, K.Later w w' → s.Holds (K.Passes w') → (f s).Holds (K.Passes w') ∧ (f s).cells.size = s.cells.size) :
    K.Agrees w (fun _ _ => True) (modifyThe Store f : Exec Unit) (modifyThe Store f) :=
  step hblind (fun w' s hw hs => ⟨(h w' s hw hs).1, Nat.le_of_eq (h w' s hw hs).2.symm, trivial⟩) fun _ _ => trivial

theorem setField (owner : Value) (index : Nat) (hv : K.Passes w v) :
    K.Agrees w (fun _ _ => True) (modifyThe Store fun s => s.setField owner index v : Exec Unit)
      (modifyThe Store fun s => s.setField owner index v) :=
  modify (blind_setField owner index v) fun _ _ hw hs =>
    ⟨hs.setField owner index (K.passes_later hw hv), congrArg Array.size (cells_setField _ _ _ _)⟩

theorem setItem (array : Value) (index : Nat) (hv : K.Passes w v) :
    K.Agrees w (fun _ _ => True) (modifyThe Store fun s => s.setItem array index v : Exec Unit)
      (modifyThe Store fun s => s.setItem array index v) :=
  modify (blind_setItem array index v) fun _ _ hw hs =>
    ⟨hs.setItem array index (K.passes_later hw hv), congrArg Array.size (cells_setItem _ _ _ _)⟩

theorem unboxed (hv : K.Passes w v) : K.Agrees w K.Passes (unboxed v) (unboxed v) :=
  get_bind fun _ s t hw hst => by
    rw [(K.twins hst).unboxed]
    exact value ((K.holds hst).unboxed (K.passes_later hw hv))

theorem hash (U : Universe) (hv : K.Passes w v) :
    K.Agrees w (fun _ _ => True) (Exec.hash U v) (Exec.hash U v) := by
  refine (unboxed hv).seq fun _ u _ _ => (nesting u).seq fun _ _ _ _ => get_bind fun _ s t _ hst => ?_
  rw [(K.twins hst).hash]
  exact found _

theorem dynamicType (v : Value) : K.Agrees w (fun _ _ => True) (dynamicType v) (dynamicType v) :=
  get_bind fun _ s t _ hst => by
    rw [(K.twins hst).dynamicType]
    exact result _

theorem accept {s t : Store} (h : s.Twins t) (v : Value) (ty : Option Ty) (b : Option Bool) :
    K.Agrees w (fun _ _ => True) (s.accept v ty b) (t.accept v ty b) := by
  unfold Store.accept
  rw [h.dynamicType]
  split
  · exact result _
  · exact fail rfl
  · exact corrupt

theorem check (U : Universe) (v : Value) (ty : Option Ty) :
    K.Agrees w (fun _ _ => True) (Exec.check U v ty) (Exec.check U v ty) := by
  refine get_bind fun _ s t _ hst => (found ty).seq fun _ u _ _ => ?_
  rw [(K.twins hst).isOf]
  exact accept (K.twins hst) v ty _

theorem checkReference (U : Universe) (v : Value) (ty : Option Ty) :
    K.Agrees w (fun _ _ => True) (checkReference U v ty) (checkReference U v ty) := by
  refine get_bind fun _ s t _ hst => .ite (fun _ => result _) fun _ => ?_
  rw [(K.twins hst).isInstance]
  exact accept (K.twins hst) v ty _

theorem store (loc : Loc) (hv : K.Passes w v) :
    K.Agrees w (fun _ _ => True) (modifyThe Store fun s => s.store loc v : Exec Unit)
      (modifyThe Store fun s => s.store loc v) :=
  modify (fun _ _ => rfl) fun _ _ hw hs => ⟨hs.store loc (K.passes_later hw hv), Array.size_modify⟩

end Relates

end Correspondence

end TreeMachine
