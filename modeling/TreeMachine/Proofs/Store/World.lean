import TreeMachine.Proofs.Codegen.Compile
import TreeMachine.Proofs.Store.Correspondence

/-!
# Shown and hidden cells

A variable that is shared with closures lives in a cell that compiled code makes for it. Such a cell
stays hidden: slots and closures hold it, but no value that a program can pass on refers to it. A
*world* is a store together with the cells that are shown.

* **`Exec.Keeps`** says of an execution that it keeps a world sound and that it does not end with a
  check of the machine. `Caller.Safe` and `Routine.Safe` say so of the code of a host.
* **`World.correspondence`** makes a correspondence of sound worlds, so that what keeps all correspondences
  keeps worlds sound.
-/

namespace TreeMachine

open Exec

/-! ## Values -/

def Value.Plain (shown : Loc → Prop) (v : Value) : Prop := ∀ loc, v.datum = .cell loc → shown loc

def Value.IsCell (v : Value) : Prop := ∃ loc, v.datum = .cell loc

namespace Value

variable {shown shown' : Loc → Prop} {v : Value}

theorem Plain.mono (h : v.Plain shown) (hs : ∀ loc, shown loc → shown' loc) : v.Plain shown' :=
  fun loc hloc => hs loc (h loc hloc)

theorem plain_of_ne (h : ∀ loc, v.datum ≠ .cell loc) : v.Plain shown := fun loc hloc => (h loc hloc).elim

@[simp] theorem plain_default : Plain shown {} := plain_of_ne nofun
@[simp] theorem plain_nil : Plain shown .nil := plain_of_ne nofun
@[simp] theorem plain_ofInt32 (n : Int64) : Plain shown (.ofInt32 n) := plain_of_ne nofun

end Value

inductive Expr.Plain (shown : Loc → Prop) : Expr → Prop
  | node {e : Expr} : (∀ v t, e = .constant v t → v.Plain shown) →
    (∀ c ∈ e.children, Plain shown c) → Plain shown e

namespace Expr.Plain

variable {shown shown' : Loc → Prop} {e : Expr}

theorem mono (h : e.Plain shown) (hs : ∀ loc, shown loc → shown' loc) : e.Plain shown' := by
  induction h with
  | node hv _ ih => exact .node (fun v t he => (hv v t he).mono hs) ih

theorem child {c : Expr} (h : e.Plain shown) (hc : c ∈ e.children) : c.Plain shown := by
  cases h with
  | node _ hchildren => exact hchildren c hc

theorem constant {v : Value} {t : Option Ty} (h : Expr.Plain shown (.constant v t)) : v.Plain shown := by
  cases h with
  | node hv _ => exact hv v t rfl

end Expr.Plain

/-! ## Closures -/

/-- The function of a closure stems from the compilation of a checked tree in which nothing void is
passed or stored. -/
def Closure.Compiled (c : Closure) : Prop :=
  ∃ (U : Universe) (options : Options) (root : Lambda) (shape : Shape) (a : Artifact),
    U.Declared ∧ root.toExpr.Checked U ∧ root.toExpr.Valued ∧
    Compiler.compile U options (some root) shape = .ok a ∧
    c.image = a.image ∧ (c.function = a.main ∨ c.function ∈ a.image)

def Capture.Holds (shown : Loc → Prop) (k : Capture) (v : Value) : Prop :=
  if k.byRef then v.IsCell else v.Plain shown

theorem Capture.Holds.mono {shown shown' : Loc → Prop} {k : Capture} {v : Value}
    (h : k.Holds shown v) (hs : ∀ loc, shown loc → shown' loc) : k.Holds shown' v := by
  unfold Capture.Holds at h ⊢
  split
  · rwa [if_pos ‹_›] at h
  · rw [if_neg ‹_›] at h
    exact h.mono hs

def Function.Plain (shown : Loc → Prop) (f : Function) : Prop :=
  ∀ v, .value v ∈ f.chunk.constants → v.Plain shown

structure Closure.Sound (shown : Loc → Prop) (c : Closure) : Prop where
  compiled : c.Compiled
  constants : ∀ g, g = c.function ∨ g ∈ c.image → g.Plain shown
  free : List.Forall₂ (Capture.Holds shown) c.function.captures c.free.toList

/-- Code is compiled, and trees refer to shown cells only. -/
def Delegate.Sound (shown : Loc → Prop) : Delegate → Prop
  | .compiled c => c.Sound shown
  | .evaluated l _ _ _ => l.body.Plain shown
  | .host _ _ => True

namespace Closure

variable {shown shown' : Loc → Prop} {c : Closure}

theorem Compiled.certified (h : c.Compiled) : ∃ mode G, c.function.Certified c.image mode G := by
  obtain ⟨U, options, root, shape, a, hU, hroot, hv, ha, himage, hfn⟩ := h
  obtain ⟨hmain, -⟩ := Compiler.compile_certified hU hroot hv ha
  rw [himage]
  rcases hfn with hfn | hfn
  · rw [hfn]
    exact hmain.certified
  · exact hmain.image _ hfn

theorem Compiled.other (h : c.Compiled) {g : Function} (hg : g ∈ c.image) (free : Array Value) :
    Compiled { c with function := g, free := free } := by
  obtain ⟨U, options, root, shape, a, hU, hroot, hv, ha, himage, -⟩ := h
  exact ⟨U, options, root, shape, a, hU, hroot, hv, ha, himage, .inr (himage ▸ hg)⟩

theorem Sound.mono (h : c.Sound shown) (hs : ∀ loc, shown loc → shown' loc) : c.Sound shown' where
  compiled := h.compiled
  constants g hg v hv := (h.constants g hg v hv).mono hs
  free := h.free.imp fun _ _ hk => hk.mono hs

theorem Sound.free_eq (h : c.Sound shown) {i : Nat} {b : Bool}
    (hi : (c.function.captures.map (·.byRef))[i]? = some b) :
    ∃ v, c.free[i]? = some v ∧ if b then v.IsCell else v.Plain shown := by
  rw [List.getElem?_map] at hi
  obtain ⟨k, hk, rfl⟩ := Option.map_eq_some_iff.1 hi
  obtain ⟨hlt, rfl⟩ := List.getElem?_eq_some_iff.1 hk
  have hlt' : i < c.free.toList.length := h.free.length_eq ▸ hlt
  exact ⟨c.free[i], Array.getElem?_eq_getElem hlt', List.Forall₂.get h.free hlt hlt'⟩

end Closure

theorem Delegate.Sound.mono {shown shown' : Loc → Prop} {d : Delegate} (h : d.Sound shown)
    (hs : ∀ loc, shown loc → shown' loc) : d.Sound shown' := by
  cases d with
  | compiled c => exact Closure.Sound.mono h hs
  | evaluated l => exact Expr.Plain.mono h hs
  | host => trivial

/-! ## Worlds -/

structure World where
  store : Store
  shown : Loc → Prop

namespace World

structure Sound (w : World) : Prop where
  range : ∀ loc, w.shown loc → loc < w.store.cells.size
  aggregates : ∀ r ∈ w.store.aggregates, ∀ v ∈ r.fields, v.Plain w.shown
  objects : ∀ r ∈ w.store.objects, ∀ v ∈ r.fields, v.Plain w.shown
  boxes : ∀ v ∈ w.store.boxes, v.Plain w.shown
  arrays : ∀ a ∈ w.store.arrays, ∀ v ∈ a.items, v.Plain w.shown
  cells : ∀ c ∈ w.store.cells, c.value.Plain w.shown
  delegates : ∀ d ∈ w.store.delegates, d.Sound w.shown

/-- A later world: cells are only added, and of those that existed none is shown anew. -/
structure Extends (w' w : World) : Prop where
  shown : ∀ loc, w.shown loc → w'.shown loc
  fresh : ∀ loc, w'.shown loc → w.shown loc ∨ w.store.cells.size ≤ loc
  cells : w.store.cells.size ≤ w'.store.cells.size

theorem Extends.refl (w : World) : w.Extends w := ⟨fun _ h => h, fun _ h => .inl h, Nat.le_refl _⟩

theorem Extends.trans {w w' w'' : World} (h : w'.Extends w) (h' : w''.Extends w') : w''.Extends w where
  shown loc hloc := h'.shown loc (h.shown loc hloc)
  fresh loc hloc := by
    rcases h'.fresh loc hloc with hloc | hloc
    · exact h.fresh loc hloc
    · exact .inr (Nat.le_trans h.cells hloc)
  cells := Nat.le_trans h.cells h'.cells

def withStore (w : World) (s : Store) : World := ⟨s, w.shown⟩

theorem extends_withStore {w : World} {s : Store} (h : w.store.cells.size ≤ s.cells.size) :
    (w.withStore s).Extends w := ⟨fun _ hl => hl, fun _ hl => .inl hl, h⟩

/-- The later world has a cell in the place behind the cells of the earlier one, and it is hidden. -/
def Hides (w' w : World) : Prop :=
  w.store.cells.size < w'.store.cells.size ∧ ¬w'.shown w.store.cells.size

theorem sound_empty : Sound ⟨{}, fun _ => False⟩ where
  range _ h := h.elim
  aggregates r hr := by simp at hr
  objects r hr := by simp at hr
  boxes r hr := by simp at hr
  arrays r hr := by simp at hr
  cells r hr := by simp at hr
  delegates r hr := by simp at hr

end World

/-! ## Executions -/

namespace Exec

variable {α β : Type} {w : World} {x : Exec α} {P P' : World → Prop} {Q Q' : World → α → Prop}

/-- The execution ends in a sound world that satisfies `P`. Its result satisfies `Q` there, and if it fails,
it is not for a check of the machine. -/
def Ends (w : World) (x : Exec α) (P : World → Prop) (Q : World → α → Prop) : Prop :=
  match x w.store with
  | .ok a s => ∃ w' : World, w'.store = s ∧ P w' ∧ w'.Sound ∧ Q w' a
  | .error e s => ∃ w' : World, w'.store = s ∧ P w' ∧ w'.Sound ∧ e.isCheck = false

namespace Ends

theorem of_ok {a : α} {s : Store} {w' : World} (h : x w.store = .ok a s) (hs : w'.store = s)
    (hp : P w') (hw : w'.Sound) (hq : Q w' a) : Ends w x P Q := by
  unfold Ends
  rw [h]
  exact ⟨w', hs, hp, hw, hq⟩

theorem of_error {e : Abort} {s : Store} {w' : World} (h : x w.store = .error e s) (hs : w'.store = s)
    (hp : P w') (hw : w'.Sound) (he : e.isCheck = false) : Ends w x P Q := by
  unfold Ends
  rw [h]
  exact ⟨w', hs, hp, hw, he⟩

theorem cases (h : Ends w x P Q) : (∃ a, ∃ w' : World, x w.store = .ok a w'.store ∧ P w' ∧ w'.Sound ∧ Q w' a) ∨
      ∃ e, ∃ w' : World, x w.store = .error e w'.store ∧ P w' ∧ w'.Sound ∧ e.isCheck = false := by
  unfold Ends at h
  cases hres : x w.store with
  | ok a s =>
    rw [hres] at h
    obtain ⟨w', rfl, hp, hw, hq⟩ := h
    exact .inl ⟨a, w', rfl, hp, hw, hq⟩
  | error e s =>
    rw [hres] at h
    obtain ⟨w', rfl, hp, hw, he⟩ := h
    exact .inr ⟨e, w', rfl, hp, hw, he⟩

theorem imp (h : Ends w x P Q) (hp : ∀ w', P w' → P' w')
    (hq : ∀ w' a, P w' → w'.Sound → Q w' a → Q' w' a) : Ends w x P' Q' := by
  rcases h.cases with ⟨a, w', hres, hp', hw, h⟩ | ⟨e, w', hres, hp', hw, he⟩
  · exact of_ok hres rfl (hp w' hp') hw (hq w' a hp' hw h)
  · exact of_error hres rfl (hp w' hp') hw he

protected theorem bind {f : α → Exec β} {R : World → β → Prop} (hx : Ends w x P Q) (hp : ∀ w', P w' → P' w')
    (hf : ∀ w' a, P w' → w'.Sound → Q w' a → Ends w' (f a) P' R) : Ends w (x >>= f) P' R := by
  rcases hx.cases with ⟨a, w', hres, hp', hw, hq⟩ | ⟨e, w', hres, hp', hw, he⟩
  · have hnext := hf w' a hp' hw hq
    unfold Ends at hnext ⊢
    rwa [EStateM.bind_of_ok hres]
  · exact of_error (EStateM.bind_of_error hres) rfl (hp w' hp') hw he

theorem mapError {f : Error → Error} (hf : ∀ e, (f e).isCheck = e.isCheck) (h : Ends w x P Q) :
    Ends w (Exec.mapError f x) P Q := by
  rcases h.cases with ⟨a, w', hres, hp, hw, hq⟩ | ⟨e, w', hres, hp, hw, he⟩
  · exact of_ok (by rw [Exec.mapError, hres]) rfl hp hw hq
  · cases e with
    | error e =>
      refine of_error (e := .error (f e)) ?_ rfl hp hw ((hf e).trans he)
      rw [Exec.mapError, hres]
    | panic | endless => exact of_error (by rw [Exec.mapError, hres]) rfl hp hw he

end Ends

def Keeps (w : World) (x : Exec α) (Q : World → α → Prop) : Prop := Ends w x (·.Extends w) Q

namespace Keeps

protected theorem pure (hw : w.Sound) {a : α} (h : Q w a) : Keeps w (pure a) Q :=
  .of_ok rfl rfl (.refl w) hw h

theorem imp (h : Keeps w x Q) (hq : ∀ w' a, w'.Extends w → w'.Sound → Q w' a → Q' w' a) :
    Keeps w x Q' := Ends.imp h (fun _ hp => hp) hq

protected theorem bind {f : α → Exec β} {R : World → β → Prop} (hx : Keeps w x Q)
    (hf : ∀ w' a, w'.Extends w → w'.Sound → Q w' a → Keeps w' (f a) R) : Keeps w (x >>= f) R :=
  Ends.bind hx (fun _ hp => hp) fun w' a hext hw hq =>
    Ends.imp (hf w' a hext hw hq) (fun _ => hext.trans) fun _ _ _ _ hr => hr

theorem fail (hw : w.Sound) {c : Cause} (h : c.isCheck = false) : Keeps w (fail c : Exec α) Q :=
  .of_error rfl rfl (.refl w) hw h

theorem panic (hw : w.Sound) {p : Panic} (h : p.isCheck = false) : Keeps w (panic p : Exec α) Q :=
  .of_error rfl rfl (.refl w) hw h

theorem corrupt (hw : w.Sound) : Keeps w (corrupt : Exec α) Q :=
  .of_error rfl rfl (.refl w) hw rfl

theorem step {f : Store → α × Store} (hcells : w.store.cells.size ≤ (f w.store).2.cells.size)
    (hw : (w.withStore (f w.store).2).Sound) (hq : Q (w.withStore (f w.store).2) (f w.store).1) :
    Keeps w (step f) Q :=
  .of_ok rfl rfl (World.extends_withStore hcells) hw hq

theorem nesting_bind {v : Value} {f : Unit → Exec α} (hw : w.Sound) (h : Keeps w (f ()) Q) :
    Keeps w (nesting v >>= f) Q := by
  cases hnests : w.store.nests v with
  | true =>
    have hok : nesting v w.store = .ok () w.store := by
      show ending (w.store.nests v) w.store = _
      rw [hnests]
      rfl
    unfold Keeps Ends at h ⊢
    rwa [EStateM.bind_of_ok hok]
  | false =>
    have herror : nesting v w.store = .error .endless w.store := by
      show ending (w.store.nests v) w.store = _
      rw [hnests]
      rfl
    exact .of_error (EStateM.bind_of_error herror) rfl (.refl w) hw rfl

end Keeps

end Exec

/-! ## The correspondence of sound worlds -/

namespace World

variable {w : World} {s : Store}

theorem Sound.holds (h : w.Sound) : w.store.Holds (Value.Plain w.shown) :=
  ⟨h.aggregates, h.objects, h.boxes, h.arrays, h.cells⟩

theorem Sound.withStore (h : w.Sound) (hs : s.Holds (Value.Plain w.shown)) (hcells : w.store.cells.size ≤ s.cells.size)
    (hdelegates : ∀ d ∈ s.delegates, d.Sound w.shown) : (w.withStore s).Sound where
  range loc hloc := Nat.lt_of_lt_of_le (h.range loc hloc) hcells
  aggregates := hs.aggregates
  objects := hs.objects
  boxes := hs.boxes
  arrays := hs.arrays
  cells := hs.cells
  delegates := hdelegates

theorem Sound.delegate (h : w.Sound) {v : Value} {d : Delegate} (hd : w.store.delegate? v = some d) :
    d.Sound w.shown := by
  unfold Store.delegate? at hd
  split at hd
  · exact h.delegates d (Array.mem_of_getElem? hd)
  · cases hd

theorem Sound.step (h : w.Sound) {α : Type} {f : Store → α × Store} (hblind : Store.Blind f)
    (hholds : (f w.store).2.Holds (Value.Plain w.shown)) (hcells : w.store.cells.size ≤ (f w.store).2.cells.size) :
    (w.withStore (f w.store).2).Sound := by
  have hsame : (f w.store).2.delegates = w.store.delegates :=
    congrArg (fun r => r.2.delegates) (hblind w.store w.store.delegates)
  refine h.withStore hholds hcells ?_
  rw [hsame]
  exact h.delegates

def correspondence : Correspondence where
  World := World
  Later w w' := w'.Extends w
  Stores w s t := s = w.store ∧ t = w.store ∧ w.Sound
  Passes w v := v.Plain w.shown
  Delegates w d d' := d' = d ∧ d.Sound w.shown
  Strict := True
  Ending := False
  refl := Extends.refl
  trans h h' := h.trans h'
  passes_later h hv := hv.mono h.shown
  restricts _ _ h := Value.plain_of_ne h
  retype h := h
  twins h := by
    obtain ⟨rfl, rfl, -⟩ := h
    rfl
  holds h := by
    obtain ⟨rfl, -, hw⟩ := h
    exact hw.holds
  delegate {w s t} v h := by
    obtain ⟨rfl, rfl, hw⟩ := h
    cases hd : w.store.delegate? v with
    | none => exact .none
    | some d => exact .some ⟨rfl, hw.delegate hd⟩
  change {w s t α f} h hblind hholds hcells := by
    obtain ⟨rfl, rfl, hw⟩ := h
    exact ⟨w.withStore (f w.store).2, extends_withStore hcells, rfl, rfl, hw.step hblind hholds hcells⟩
  addDelegate {w s t d d'} h hd := by
    obtain ⟨rfl, rfl, hw⟩ := h
    obtain ⟨rfl, hd⟩ := hd
    refine ⟨rfl, w.withStore (w.store.addDelegate d').2, extends_withStore (Nat.le_refl _), rfl, rfl, ?_⟩
    exact hw.withStore ⟨hw.aggregates, hw.objects, hw.boxes, hw.arrays, hw.cells⟩ (Nat.le_refl _)
      (Store.forall_mem_push hw.delegates hd)

end World

theorem Exec.Keeps.of_relates {α : Type} {w : World} {x : Exec α} {R : World → α → α → Prop}
    (h : World.correspondence.Relates w R x x) (hw : w.Sound) : Keeps w x fun w' a => R w' a a := by
  have hends := h (World.Extends.refl w) ⟨rfl, rfl, hw⟩
  generalize hx : x w.store = r at hends
  cases hends with
  | @ok w' a b s t hext hst hab =>
    obtain ⟨hs, -, hw'⟩ := hst
    exact .of_ok hx hs.symm hext hw' hab
  | @error w' e s t hext hst he =>
    obtain ⟨hs, -, hw'⟩ := hst
    exact .of_error hx hs.symm hext hw' (he trivial)

theorem Exec.Keeps.of_agrees {α : Type} {w : World} {x : Exec α} {P : World → α → Prop}
    (h : World.correspondence.Agrees w P x x) (hw : w.Sound) : Keeps w x P :=
  (of_relates h hw).imp fun _ _ _ _ ha => ha.2

theorem World.agrees_of_keeps {α : Type} {w : World} {x : Exec α} {P : World → α → Prop}
    (h : ∀ w' : World, w'.Extends w → w'.Sound → Exec.Keeps w' x P) : World.correspondence.Agrees w P x x := by
  intro w' hext s t hst
  obtain ⟨rfl, rfl, hw'⟩ := hst
  rcases (h w' hext hw').cases with ⟨a, w'', hx, hext', hw'', ha⟩ | ⟨e, w'', hx, hext', hw'', he⟩
  · rw [hx]
    exact .ok hext' ⟨rfl, rfl, hw''⟩ ⟨rfl, ha⟩
  · rw [hx]
    exact .error hext' ⟨rfl, rfl, hw''⟩ (fun _ => he) False.elim

/-! ## The host -/

/-- The values that an execution ends with refer to shown cells only. -/
def Exec.KeepsPlain (w : World) (x : Exec Value) : Prop := Exec.Keeps w x fun w' v => v.Plain w'.shown

def Caller.Safe (call : Caller) : Prop :=
  ∀ ⦃w : World⦄ ⦃d : Delegate⦄ ⦃args : List Value⦄, w.Sound → d.Sound w.shown →
    (∀ v ∈ args, v.Plain w.shown) → Exec.KeepsPlain w (call d args)

/-- The routine keeps worlds sound, if the delegates that it calls do. It cannot make a hidden cell a
shown one, as it has to do for any choice of the shown cells. -/
def Routine.Safe (r : Routine) : Prop :=
  ∀ (U : Universe) ⦃call : Caller⦄ ⦃w : World⦄ ⦃self : Value⦄ ⦃args : List Value⦄, Caller.Safe call →
    w.Sound → self.Plain w.shown → (∀ v ∈ args, v.Plain w.shown) →
    Exec.KeepsPlain w (r U call self args)

def Host.Safe (H : Host) : Prop := ∀ r ∈ H.routines, Routine.Safe r

end TreeMachine
