import TreeMachine.Host.Basic
import TreeMachine.Proofs.Store.Bounds
import TreeMachine.Proofs.Types.Instances

/-!
# Stores whose contents are of their types

A *heap* is a store together with the locations that are known in it. Each location has a type for good
(`Store.nominal`), so whether a value is of a type can be read off the types of the locations it leads to:

* **`Heap.HasType`** says that a value is of a type: it passes the check of the type, refers to known
  locations only, and is a reference where a reference is expected.
* **`Heap.Typed`** says that what known locations hold is of their types, all the way down.
* **`Exec.Answers`** says of an execution that it keeps a heap typed, and that it fails only in ways that no
  check of types can rule out (`Abort.isRuntime`).

What delegates do that are no lambdas of trees is not seen in the store. `Heap` takes it as given which
signatures they serve.
-/

namespace TreeMachine

/-! ## Failures that types do not rule out -/

/-- Null where an object is needed, a division by zero, an index out of range, calls that nest too deep,
and what the host itself says, `CompareTo` on an argument of another type included. -/
def Cause.isRuntime : Cause → Bool
  | .host _ _ | .wrongArgument _ => true
  | c =>
    match c.sentinel? with
    | some .nullReference | some .divideByZero | some .indexOutOfRange | some .callDepth => true
    | _ => false

def Error.isCast : Error → Bool
  | .plain (.notInstance _ _) | .plain (.notBoxed _ _) => true
  | _ => false

def Panic.isHost : Panic → Bool
  | .host _ => true
  | _ => false

/-- The failure has such a cause. An invalid cast is one where a conversion asked for it. -/
def Error.isRuntime : Error → Bool
  | .plain c => c.isRuntime
  | .recovered p => p.isHost
  | .inMethod _ e | .atArgument _ e => isRuntime e
  | .atNode _ kind e => isRuntime e || (kind = .convert && e.isCast)
  | .atInstruction _ _ byte e =>
    isRuntime e || ((byte = Opcode.cast.byte || byte = Opcode.unbox.byte) && e.isCast)

def Abort.isRuntime : Abort → Bool
  | .error e => e.isRuntime
  | .endless => false
  | .panic p => p.isHost

/-! ## Heaps -/

/-- The type that a location has for good. -/
def Store.nominal (s : Store) : Datum → Option Ty
  | .aggregate loc => (s.aggregates[loc]?).bind (·.type)
  | .object loc => (s.objects[loc]?).bind (·.type)
  | .box loc => (s.boxes[loc]?).bind (·.type)
  | .array loc => (s.arrays[loc]?).map fun a => .array a.elem
  | .cell loc => (s.cells[loc]?).bind (·.type)
  | _ => none

def Datum.isReference : Datum → Bool
  | .null | .text _ | .object _ | .box _ | .array _ | .delegate _ => true
  | .bool _ | .int _ | .float _ | .aggregate _ | .cell _ => false

abbrev Signature := List Ty × Option Ty

/-- A lambda of a tree serves its own signature. -/
def Delegate.Serves (F : Delegate → Signature → Prop) : Delegate → Signature → Prop
  | .evaluated l _ _ _, sig => (l.params.map (·.type), l.result) = sig
  | d, sig => F d sig

/-- A store over the types of `U`, and the locations known in it. `F` says which signatures the delegates
serve that are no lambdas of trees. -/
structure Heap (U : Universe) (F : Delegate → Signature → Prop) where
  store : Store
  known : Datum → Prop

namespace Heap

variable {U : Universe} {F : Delegate → Signature → Prop} (w : Heap U F)

/-- The value refers to a known location and is held at a type that fits it. -/
def Proper (v : Value) : Prop :=
  match v.datum with
  | .null | .bool _ | .int _ | .float _ => True
  | .text _ => v.type = some .string
  | .aggregate _ => w.known v.datum ∧ ∃ t, w.store.nominal v.datum = some t ∧ v.type = some t ∧
    U.isAggregate t = true
  | .object _ => w.known v.datum ∧ ∃ t, w.store.nominal v.datum = some t ∧
    (U.decl t).form = .classType ∧ t ≠ .null
  | .box _ => w.known v.datum ∧ ∃ t, w.store.nominal v.datum = some t ∧ U.isValue t = true
  | .array _ => w.known v.datum ∧ ∃ e, w.store.nominal v.datum = some (.array e) ∧
    v.type = some (.array e)
  | .delegate loc => w.known v.datum ∧ ∃ d t sig, w.store.delegates[loc]? = some d ∧
    v.type = some t ∧ U.signature? t = some sig ∧ d.Serves F sig
  | .cell _ => False

/-- The value is of a type; void is the type of null alone. -/
def HasType (v : Value) : Option Ty → Prop
  | none => v.datum = .null
  | some t => w.Proper v ∧ w.store.isOf U v t = some true ∧
    (U.isValue t = false → v.datum.isReference = true)

def HaveTypes (vs : List Value) (ts : List (Option Ty)) : Prop := List.Forall₂ w.HasType vs ts

def Fills (t : Ty) (vs : List Value) : Prop := w.HaveTypes vs ((U.layout t).map fun f => some f.type)

def HasCell (loc : Loc) (t : Ty) : Prop :=
  w.known (.cell loc) ∧ w.store.nominal (.cell loc) = some t

end Heap

/-! ## Trees over a heap -/

namespace Expr

/-- Every node of the tree has the property. -/
inductive All (P : Expr → Prop) : Expr → Prop
  | node {e : Expr} : P e → (∀ c ∈ e.children, All P c) → All P e

namespace All

variable {P Q : Expr → Prop} {e : Expr}

theorem here (h : e.All P) : P e := by
  cases h
  assumption

theorem child (h : e.All P) {c : Expr} (hc : c ∈ e.children) : c.All P := by
  cases h with
  | node _ hchildren => exact hchildren c hc

theorem imp (h : e.All P) (hpq : ∀ e, P e → Q e) : e.All Q := by
  induction h with
  | node hp _ ih => exact .node (hpq _ hp) ih

end All

/-- Neither texts nor null are constructed, and initializers bind members of the constructed type. -/
def Constructs (U : Universe) : Expr → Prop
  | .new t _ _ => t ≠ .string ∧ t ≠ .null
  | .init t _ _ ms _ => ∀ m ∈ ms, U.member? t m.name = some m
  | _ => True

def scopes : Expr → Bool
  | .var _ | .lambda .. | .block .. => true
  | _ => false

/-- Each variable of the tree is declared, around it in the tree or in `scope`, innermost first. A
variable is looked up by its identity. -/
inductive ClosedIn : List Var → Expr → Prop
  | var {scope : List Var} {v : Var} : scope.find? (·.id = v.id) = some v → ClosedIn scope (.var v)
  | lambda {scope : List Var} {id : Nat} {name : String} {params : List Var} {body : Expr}
      {result : Option Ty} {type : Ty} : ClosedIn (params.reverse ++ scope) body →
    ClosedIn scope (.lambda id name params body result type)
  | block {scope : List Var} {id : Nat} {vars : List Var} {es : List Expr} :
    (∀ e ∈ es, ClosedIn (vars.reverse ++ scope) e) → ClosedIn scope (.block id vars es)
  | node {scope : List Var} {e : Expr} : e.scopes = false → (∀ c ∈ e.children, ClosedIn scope c) →
    ClosedIn scope e

theorem ClosedIn.child {scope : List Var} {e : Expr} (h : e.ClosedIn scope) (he : e.scopes = false) :
    ∀ c ∈ e.children, c.ClosedIn scope := by
  cases h with
  | var => cases he
  | lambda => cases he
  | block => cases he
  | node _ h => exact h

end Expr

namespace Heap

variable {U : Universe} {F : Delegate → Signature → Prop} (w : Heap U F)

def Holds : Expr → Prop
  | .constant v t => w.HasType v t
  | .hostVar _ loc t => w.HasCell loc t
  | _ => True

def Binds (scope : List Var) (env : Environment) : Prop :=
  ∀ v, scope.find? (·.id = v.id) = some v → ∃ loc, env.cell? v = some loc ∧ w.HasCell loc v.type

structure Evaluates (l : Lambda) (env : Environment) : Prop where
  checked : l.body.Checked U
  constructs : l.body.All (Expr.Constructs U)
  holds : l.body.All w.Holds
  converts : l.result.isSome = true → U.convertsImplicitlyOf l.body.type l.result = true
  closed : ∃ scope, l.body.ClosedIn (l.params.reverse ++ scope) ∧ w.Binds scope env

/-- A lambda of a tree can be called; other delegates are what the host makes of them. -/
def Runs : Delegate → Prop
  | .evaluated l _ env _ => w.Evaluates l env
  | _ => True

def Content : Datum → Prop
  | .aggregate loc => ∃ r t, w.store.aggregates[loc]? = some r ∧ r.type = some t ∧
    U.isAggregate t = true ∧ w.Fills t r.fields.toList
  | .object loc => ∃ r t, w.store.objects[loc]? = some r ∧ r.type = some t ∧
    (U.decl t).form = .classType ∧ w.Fills t r.fields.toList
  | .box loc => ∃ v t, w.store.boxes[loc]? = some v ∧ v.type = some t ∧ U.isValue t = true ∧
    w.HasType v (some t)
  | .array loc => ∃ a, w.store.arrays[loc]? = some a ∧ ∀ v ∈ a.items, w.HasType v (some a.elem)
  | .cell loc => ∃ c t, w.store.cells[loc]? = some c ∧ c.type = some t ∧ w.HasType c.value (some t)
  | .delegate loc => ∃ d, w.store.delegates[loc]? = some d ∧ w.Runs d
  | _ => True

def Typed : Prop := ∀ d, w.known d → w.Content d

/-- A later heap: known locations stay known and keep their types, and delegates stay what they are. -/
structure Extends (w' w : Heap U F) : Prop where
  known : ∀ d, w.known d → w'.known d
  nominal : ∀ d, w.known d → w'.store.nominal d = w.store.nominal d
  delegate : ∀ loc, w.known (.delegate loc) → w'.store.delegates[loc]? = w.store.delegates[loc]?

namespace Extends

variable {w w' w'' : Heap U F}

theorem refl (w : Heap U F) : w.Extends w := ⟨fun _ h => h, fun _ _ => rfl, fun _ _ => rfl⟩

theorem trans (h : w'.Extends w) (h' : w''.Extends w') : w''.Extends w where
  known d hd := h'.known d (h.known d hd)
  nominal d hd := (h'.nominal d (h.known d hd)).trans (h.nominal d hd)
  delegate loc hloc := (h'.delegate loc (h.known _ hloc)).trans (h.delegate loc hloc)

end Extends

/-! ## What later heaps keep -/

section Later

variable {w} {w' : Heap U F} {v : Value} {env : Environment}

theorem Proper.mono (h : w.Proper v) (hw : w'.Extends w) : w'.Proper v := by
  obtain ⟨ty, d⟩ := v
  cases d with
  | null => trivial
  | bool b => trivial
  | int n => trivial
  | float x => trivial
  | text s => exact h
  | aggregate loc | object loc | box loc | array loc => exact ⟨hw.known _ h.1, by rw [hw.nominal _ h.1]; exact h.2⟩
  | delegate loc => exact ⟨hw.known _ h.1, by rw [hw.delegate _ h.1]; exact h.2⟩
  | cell loc => exact h

theorem Proper.dynamicType (h : w.Proper v) (hw : w'.Extends w) : w'.store.dynamicType v = w.store.dynamicType v := by
  obtain ⟨ty, d⟩ := v
  cases d with
  | aggregate loc => exact hw.nominal _ h.1
  | object loc => exact hw.nominal _ h.1
  | box loc => exact hw.nominal _ h.1
  | _ => rfl

theorem isOf_congr {s s' : Store} (h : s'.dynamicType v = s.dynamicType v) (t : Ty) :
    s'.isOf U v t = s.isOf U v t := by
  unfold Store.isOf Store.isInstance
  rw [h]

theorem HasType.mono {t : Option Ty} (h : w.HasType v t) (hw : w'.Extends w) : w'.HasType v t := by
  cases t with
  | none => exact h
  | some t =>
    obtain ⟨hp, hof, href⟩ := h
    exact ⟨hp.mono hw, by rwa [isOf_congr (hp.dynamicType hw)], href⟩

theorem HaveTypes.mono {vs : List Value} {ts : List (Option Ty)} (h : w.HaveTypes vs ts)
    (hw : w'.Extends w) : w'.HaveTypes vs ts := List.Forall₂.imp (fun _ _ hv => hv.mono hw) h

theorem HasCell.mono {loc : Loc} {t : Ty} (h : w.HasCell loc t) (hw : w'.Extends w) : w'.HasCell loc t :=
  ⟨hw.known _ h.1, by rw [hw.nominal _ h.1]; exact h.2⟩

theorem Holds.mono {e : Expr} (h : w.Holds e) (hw : w'.Extends w) : w'.Holds e := by
  cases e with
  | constant v t => exact HasType.mono h hw
  | hostVar name loc t => exact HasCell.mono h hw
  | _ => trivial

theorem Binds.mono {scope : List Var} (h : w.Binds scope env) (hw : w'.Extends w) : w'.Binds scope env := by
  intro v hv
  obtain ⟨loc, hloc, hcell⟩ := h v hv
  exact ⟨loc, hloc, hcell.mono hw⟩

theorem Evaluates.mono {l : Lambda} (h : w.Evaluates l env) (hw : w'.Extends w) : w'.Evaluates l env := by
  obtain ⟨scope, hclosed, hbinds⟩ := h.closed
  exact { h with
    holds := h.holds.imp fun _ he => he.mono hw
    closed := ⟨scope, hclosed, hbinds.mono hw⟩ }

theorem Runs.mono {d : Delegate} (h : w.Runs d) (hw : w'.Extends w) : w'.Runs d := by
  cases d with
  | evaluated l name env maxDepth => exact Evaluates.mono h hw
  | _ => trivial

end Later

end Heap

/-! ## Executions -/

namespace Exec

variable {U : Universe} {F : Delegate → Signature → Prop} {α β : Type} {w : Heap U F} {x : Exec α}
  {E E' : Abort → Prop} {Q Q' : Heap U F → α → Prop}

/-- The abort satisfies `E`, or the execution goes on forever at a struct that lies inside itself. -/
def Stops (E : Abort → Prop) (s : Store) (e : Abort) : Prop := E e ∨ e = .endless ∧ s.Loops

/-- The execution keeps the heap typed. Its result satisfies `Q` in the heap that it ends with, and its
failure `E`. -/
def Settles (E : Abort → Prop) (w : Heap U F) (x : Exec α) (Q : Heap U F → α → Prop) : Prop :=
  match x w.store with
  | .ok a s => ∃ w' : Heap U F, w'.store = s ∧ w'.Extends w ∧ w'.Typed ∧ Q w' a
  | .error e s => ∃ w' : Heap U F, w'.store = s ∧ w'.Extends w ∧ w'.Typed ∧ Stops E s e

/-- The execution fails only in ways that types do not rule out. -/
abbrev Answers (w : Heap U F) (x : Exec α) (Q : Heap U F → α → Prop) : Prop :=
  Settles (·.isRuntime = true) w x Q

namespace Settles

variable {a : α} {s : Store} {w' : Heap U F}

theorem of_ok (h : x w.store = .ok a s) (hs : w'.store = s) (hext : w'.Extends w) (hw : w'.Typed) (hq : Q w' a) :
    Settles E w x Q := by
  unfold Settles
  rw [h]
  exact ⟨w', hs, hext, hw, hq⟩

theorem of_stops {e : Abort} (h : x w.store = .error e s) (hs : w'.store = s) (hext : w'.Extends w)
    (hw : w'.Typed) (he : Stops E s e) : Settles E w x Q := by
  unfold Settles
  rw [h]
  exact ⟨w', hs, hext, hw, he⟩

theorem of_error {e : Abort} (h : x w.store = .error e s) (hs : w'.store = s) (hext : w'.Extends w)
    (hw : w'.Typed) (he : E e) : Settles E w x Q := of_stops h hs hext hw (.inl he)

theorem cases (h : Settles E w x Q) :
    (∃ a, ∃ w' : Heap U F, x w.store = .ok a w'.store ∧ w'.Extends w ∧ w'.Typed ∧ Q w' a) ∨
      ∃ e, ∃ w' : Heap U F, x w.store = .error e w'.store ∧ w'.Extends w ∧ w'.Typed ∧ Stops E w'.store e := by
  unfold Settles at h
  cases hres : x w.store with
  | ok a s =>
    rw [hres] at h
    obtain ⟨w', rfl, hext, hw, hq⟩ := h
    exact .inl ⟨a, w', rfl, hext, hw, hq⟩
  | error e s =>
    rw [hres] at h
    obtain ⟨w', rfl, hext, hw, he⟩ := h
    exact .inr ⟨e, w', rfl, hext, hw, he⟩

theorem imp (h : Settles E w x Q) (he : ∀ e, E e → E' e)
    (hq : ∀ w' a, w'.Extends w → w'.Typed → Q w' a → Q' w' a) : Settles E' w x Q' := by
  rcases h.cases with ⟨a, w', hres, hext, hw, h⟩ | ⟨e, w', hres, hext, hw, h⟩
  · exact of_ok hres rfl hext hw (hq w' a hext hw h)
  · exact of_stops hres rfl hext hw (h.imp_left (he e))

theorem mono (h : Settles E w x Q) (hq : ∀ w' a, w'.Extends w → w'.Typed → Q w' a → Q' w' a) :
    Settles E w x Q' := h.imp (fun _ he => he) hq

protected theorem pure (hw : w.Typed) (h : Q w a) : Settles E w (pure a) Q :=
  .of_ok rfl rfl (.refl w) hw h

variable {R : Heap U F → β → Prop}

protected theorem bind {f : α → Exec β} (hx : Settles E w x Q)
    (hf : ∀ w' a, w'.Extends w → w'.Typed → Q w' a → Settles E w' (f a) R) : Settles E w (x >>= f) R := by
  rcases hx.cases with ⟨a, w', hres, hext, hw, hq⟩ | ⟨e, w', hres, hext, hw, he⟩
  · rcases (hf w' a hext hw hq).cases with ⟨b, w'', hres', hext', hw', hr⟩ | ⟨e, w'', hres', hext', hw', he⟩
    · exact of_ok (by rw [EStateM.bind_of_ok hres, hres']) rfl (hext.trans hext') hw' hr
    · exact of_stops (by rw [EStateM.bind_of_ok hres, hres']) rfl (hext.trans hext') hw' he
  · exact of_stops (EStateM.bind_of_error hres) rfl hext hw he

protected theorem map {f : α → β} (hx : Settles E w x Q)
    (hf : ∀ w' a, w'.Extends w → w'.Typed → Q w' a → R w' (f a)) : Settles E w (f <$> x) R := by
  rw [← bind_pure_comp]
  exact hx.bind fun w' a hext hw hq => .pure hw (hf w' a hext hw hq)

theorem get_bind {f : Store → Exec β} (h : Settles E w (f w.store) R) : Settles E w (get >>= f) R := h

theorem fail (hw : w.Typed) {c : Cause} (h : E (.error (.plain c))) :
    Settles E w (Exec.fail c : Exec α) Q := .of_error rfl rfl (.refl w) hw h

/-- The execution goes on where `b` holds, and forever at a struct inside itself where it does not. -/
theorem ending {b : Bool} (hw : w.Typed) (hb : b = false → w.store.Loops) :
    Settles E w (Exec.ending b) fun w' _ => w' = w ∧ b = true := by
  cases b with
  | true => exact .pure hw ⟨rfl, rfl⟩
  | false => exact .of_stops rfl rfl (.refl w) hw (.inr ⟨rfl, hb rfl⟩)

theorem nesting_bind {f : Unit → Exec β} {v : Value} (hw : w.Typed) (h : Settles E w (f ()) R) :
    Settles E w (Exec.nesting v >>= f) R := by
  refine Settles.bind (.get_bind (ending hw Store.loops_of_nests)) ?_
  rintro _ _ - - ⟨rfl, -⟩
  exact h

theorem getSome (hw : w.Typed) {o : Option α} (ho : o = some a) (h : Q w a) : Settles E w (Exec.getSome o) Q := by
  rw [ho]
  exact .pure hw h

theorem mapError {f : Error → Error} (h : Settles E w x Q) (hf : ∀ e, E (.error e) → E' (.error (f e)))
    (hp : ∀ p, E (.panic p) → E' (.panic p)) (hend : E .endless → E' .endless) :
    Settles E' w (Exec.mapError f x) Q := by
  rcases h.cases with ⟨a, w', hres, hext, hw, hq⟩ | ⟨e, w', hres, hext, hw, he⟩
  · exact of_ok (by rw [Exec.mapError, hres]) rfl hext hw hq
  · rcases he with he | ⟨rfl, hloops⟩
    · cases e with
      | error e => exact of_error (e := .error (f e)) (by rw [Exec.mapError, hres]) rfl hext hw (hf e he)
      | panic p => exact of_error (by rw [Exec.mapError, hres]) rfl hext hw (hp p he)
      | endless => exact of_error (by rw [Exec.mapError, hres]) rfl hext hw (hend he)
    · exact of_stops (by rw [Exec.mapError, hres]) rfl hext hw (.inr ⟨rfl, hloops⟩)

theorem step {f : Store → α × Store} (hs : w'.store = (f w.store).2) (hext : w'.Extends w) (hw : w'.Typed)
    (hq : Q w' (f w.store).1) : Settles E w (Exec.step f) Q :=
  .of_ok rfl hs hext hw hq

end Settles

theorem Answers.mapError {f : Error → Error} (h : Answers w x Q)
    (hf : ∀ e : Error, e.isRuntime = true → (f e).isRuntime = true) : Answers w (Exec.mapError f x) Q :=
  Settles.mapError h (fun e he => hf e he) (fun _ hp => hp) id

end Exec

end TreeMachine
