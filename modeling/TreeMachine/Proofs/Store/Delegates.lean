import TreeMachine.Proofs.Outcome
import TreeMachine.Proofs.Store.Operations

/-!
# Stores that differ in delegates

Two stores that hold the same, except that a delegate of one may be another delegate of the second one, which
a relation `D` says does the same. Executions from such stores can tell them apart only by calling delegates.

* **`Exec.Together D S`** says that two executions end in the same way from such stores: both with results
  that `S` relates, or both with the same error. `Exec.Same D` is the case of equal results.
* **`Store.Twins`** is what remains of it for operations that look at no delegates: they read the same from
  both stores.
* **`Store.Blind`** says that a step takes no notice of delegates. All steps that make and copy values are
  blind, so they do the same in both stores.
-/

open Array

namespace TreeMachine

namespace Store

/-- The stores are the same up to delegates, which are related at each location. -/
structure Alike (D : Delegate → Delegate → Prop) (s t : Store) : Prop where
  rest : t = { s with delegates := t.delegates }
  size : t.delegates.size = s.delegates.size
  related : ∀ {loc : Loc} {d d' : Delegate}, s.delegates[loc]? = some d → t.delegates[loc]? = some d' → D d d'

variable {D : Delegate → Delegate → Prop} {s t : Store}

/-! ## Reading -/

theorem fieldOwner_eq (h : t.boxes = s.boxes) (n : Nat) (d : Datum) : t.fieldOwner n d = s.fieldOwner n d := by
  induction n generalizing d with
  | zero => rfl
  | succ n ih =>
    cases d with
    | box loc =>
      simp only [Store.fieldOwner, h]
      cases s.boxes[loc]? with
      | none => rfl
      | some v => exact ih v.datum
    | _ => rfl

theorem nests_eq {s t : Store} (h : t.aggregates = s.aggregates) (v : Value) : t.nests v = s.nests v := by
  have hinlined : t.inlined = s.inlined := by
    funext v
    unfold inlined
    rw [h]
  unfold nests nestsAt
  rw [h, hinlined]

def Twins (s t : Store) : Prop := t = { s with delegates := t.delegates }

namespace Twins

theorem aggregates (h : s.Twins t) : t.aggregates = s.aggregates := by rw [show t = _ from h]

theorem objects (h : s.Twins t) : t.objects = s.objects := by rw [show t = _ from h]

theorem boxes (h : s.Twins t) : t.boxes = s.boxes := by rw [show t = _ from h]

theorem arrays (h : s.Twins t) : t.arrays = s.arrays := by rw [show t = _ from h]

theorem cells (h : s.Twins t) : t.cells = s.cells := by rw [show t = _ from h]

theorem payload (h : s.Twins t) (v : Value) : t.payload? v = s.payload? v := by
  unfold payload?
  rw [h.boxes]

theorem unboxed (h : s.Twins t) (v : Value) : t.unboxed v = s.unboxed v := by
  unfold Store.unboxed
  rw [h.payload]

theorem dynamicType (h : s.Twins t) (v : Value) : t.dynamicType v = s.dynamicType v := by
  unfold Store.dynamicType
  rw [h.boxes, h.objects, h.aggregates]

theorem fields (h : s.Twins t) (v : Value) : t.fields v = s.fields v := by
  unfold Store.fields recordFields?
  rw [fieldOwner_eq h.boxes, h.boxes, h.aggregates, h.objects]

theorem items (h : s.Twins t) (v : Value) : t.items? v = s.items? v := by
  unfold items?
  rw [h.arrays]

theorem load (h : s.Twins t) (cell : Loc) : t.load cell = s.load cell := by
  unfold Store.load
  rw [h.cells]

theorem equal (h : s.Twins t) (a b : Value) : t.equal a b = s.equal a b := by
  have hat : ∀ n a b, t.equalAt n a b = s.equalAt n a b := by
    intro n
    induction n with
    | zero => exact fun _ _ => rfl
    | succ n ih =>
      intro a b
      have hfun : t.equalAt n = s.equalAt n := funext fun a => funext fun b => ih a b
      simp only [equalAt, h.unboxed, h.aggregates, hfun]
  unfold Store.equal
  rw [h.aggregates, hat]

theorem compares (h : s.Twins t) (a b : Value) : t.compares a b = s.compares a b := by
  have hnext : t.compared = s.compared := funext fun _ => by
    simp only [compared, h.unboxed, h.aggregates, h.equal]
  unfold Store.compares
  rw [h.aggregates, hnext]

theorem nests (h : s.Twins t) (v : Value) : t.nests v = s.nests v := nests_eq h.aggregates v

theorem hash (h : s.Twins t) (U : Universe) (v : Value) : t.hash U v = s.hash U v := by
  have hat : ∀ n b v, t.hashAt U n b v = s.hashAt U n b v := by
    intro n
    induction n with
    | zero => exact fun _ _ => rfl
    | succ n ih =>
      intro b v
      have hfun : t.hashAt U n = s.hashAt U n := funext fun b => funext fun v => ih b v
      simp only [hashAt, h.aggregates, hfun]
  unfold Store.hash
  rw [h.aggregates, h.unboxed, h.nests, hat]

theorem text (h : s.Twins t) (U : Universe) (v : Value) : t.text U v = s.text U v := by
  have hat : ∀ n v, textAt U t n v = textAt U s n v := by
    intro n
    induction n with
    | zero => exact fun _ => rfl
    | succ n ih =>
      intro v
      simp only [textAt, h.boxes, h.dynamicType, ih]
  unfold Store.text
  rw [h.boxes, hat]

theorem isInstance (h : s.Twins t) (U : Universe) (v : Value) (u : Option Ty) :
    t.isInstance U v u = s.isInstance U v u := by
  unfold Store.isInstance
  rw [h.dynamicType]

theorem isOf (h : s.Twins t) (U : Universe) (v : Value) (u : Ty) : t.isOf U v u = s.isOf U v u := by
  unfold Store.isOf
  rw [h.dynamicType, h.isInstance]

end Twins

namespace Alike

protected theorem refl (hD : ∀ d, D d d) (s : Store) : s.Alike D s where
  rest := rfl
  size := rfl
  related h h' := by
    rw [h] at h'
    cases h'
    exact hD _

theorem twins (h : s.Alike D t) : s.Twins t := h.rest

theorem eq (h : s.Alike Eq t) : t = s := by
  have hdelegates : t.delegates = s.delegates := by
    refine ext h.size fun i hi hi' => ?_
    exact (h.related (getElem?_eq_getElem hi') (getElem?_eq_getElem hi)).symm
  rw [show t = _ from h.rest, hdelegates]

theorem delegate (h : s.Alike D t) (v : Value) : Option.Rel D (s.delegate? v) (t.delegate? v) := by
  unfold delegate?
  split
  · rename_i loc _
    by_cases hlt : loc < s.delegates.size
    · have hd := getElem?_eq_getElem hlt
      have hd' := getElem?_eq_getElem (h.size ▸ hlt)
      rw [hd, hd']
      exact .some (h.related hd hd')
    · have hle := Nat.le_of_not_lt hlt
      rw [getElem?_eq_none hle, getElem?_eq_none (h.size ▸ hle)]
      exact .none
  · exact .none

/-! ## Changing -/

theorem change (h : s.Alike D t) {f : Store → Store}
    (hf : ∀ s ds, f { s with delegates := ds } = { f s with delegates := ds }) : (f s).Alike D (f t) := by
  have hs : (f s).delegates = s.delegates := by rw [show f s = _ from hf s s.delegates]
  have ht : f t = { f s with delegates := t.delegates } := by rw [← hf s t.delegates, ← h.rest]
  rw [ht]
  exact ⟨rfl, by rw [hs]; exact h.size, fun hd hd' => h.related (hs ▸ hd) hd'⟩

theorem addDelegate (h : s.Alike D t) {d d' : Delegate} (hd : D d d') :
    (t.addDelegate d').1 = (s.addDelegate d).1 ∧ (s.addDelegate d).2.Alike D (t.addDelegate d').2 := by
  refine ⟨h.size, ?_⟩
  refine ⟨?_, by simp [Store.addDelegate, h.size], fun {loc a b} ha hb => ?_⟩
  · have hrest := h.rest
    simp only [Store.addDelegate]
    rw [hrest]
  · simp only [Store.addDelegate, getElem?_push, h.size] at ha hb
    split_ifs at ha hb
    · cases ha
      cases hb
      exact hd
    · exact h.related ha hb

end Alike

/-! ## Steps that take no notice of delegates -/

/-- The step does the same whatever the delegates are, and leaves them alone. -/
def Blind {α : Type} (f : Store → α × Store) : Prop :=
  ∀ s ds, f { s with delegates := ds } = ((f s).1, { (f s).2 with delegates := ds })

theorem blind_makeAll {α : Type} {make : α → Store → Value × Store} (h : ∀ x, Blind (make x)) (xs : List α) :
    Blind (makeAll make xs) := by
  intro s ds
  induction xs using List.reverseRecOn with
  | nil => rfl
  | append_singleton xs x ih => rw [makeAll_concat, makeAll_concat, ih, h x]

theorem blind_zeroAt (U : Universe) (n : Nat) (t : Ty) : Blind (zeroAt U n t) := by
  induction n generalizing t with
  | zero => exact fun _ _ => rfl
  | succ n ih =>
    intro s ds
    have hfields := blind_makeAll (fun f : Field => ih f.type) (U.decl t).fields s ds
    simp only [zeroAt]
    cases U.storage t with
    | aggregate => simp only [hfields, addAggregate]
    | scalar | reference | interface => rfl

theorem blind_zero (U : Universe) (t : Ty) : Blind (zero U t) := blind_zeroAt U _ t

theorem blind_newAggregate (U : Universe) (t : Ty) : Blind (newAggregate U t) := by
  intro s ds
  have hfields := blind_makeAll (fun f : Field => blind_zero U f.type) (U.decl t).fields s ds
  simp only [newAggregate, hfields, addAggregate]

theorem blind_newObject (U : Universe) (t : Option Ty) : Blind (newObject U t) := by
  intro s ds
  have hfields := blind_makeAll (fun f : Field => blind_zero U f.type) ((t.map U.layout).getD []) s ds
  simp only [newObject, hfields, addObject]

theorem blind_newArrayOf (elem : Ty) (items : Array Value) : Blind (newArrayOf elem items) := fun _ _ => rfl

theorem blind_newArray (U : Universe) (elem : Ty) (n : Nat) : Blind (newArray U elem n) := by
  intro s ds
  have hitems := blind_makeAll (fun _ : Unit => blind_zero U elem) (List.replicate n ()) s ds
  simp only [newArray, hitems]
  rfl

theorem blind_cloneAt (source : Store) (n : Nat) (v : Value) : Blind (cloneAt source n v) := by
  induction n generalizing v with
  | zero => exact fun _ _ => rfl
  | succ n ih =>
    intro s ds
    simp only [cloneAt]
    cases v.datum with
    | aggregate loc =>
      dsimp only
      cases source.aggregates[loc]? with
      | none => rfl
      | some r =>
        have hfields := blind_makeAll (fun f => ih f) r.fields.toList s ds
        simp only [hfields, addAggregate]
    | _ => rfl

theorem cloneAt_congr {source source' : Store} (h : source'.aggregates = source.aggregates) (n : Nat) (v : Value)
    (s : Store) : cloneAt source' n v s = cloneAt source n v s := by
  induction n generalizing v s with
  | zero => rfl
  | succ n ih => simp only [cloneAt, h, ih]

theorem blind_clone (v : Value) : Blind (clone v) := by
  intro s ds
  have hsame : nests { s with delegates := ds } v = s.nests v := by
    apply nests_eq
    rfl
  unfold clone
  rw [hsame]
  by_cases hn : s.nests v = true
  · simp only [hn, if_true]
    have hsource : ∀ t, cloneAt { s with delegates := ds } (s.aggregates.size + 1) v t =
        cloneAt s (s.aggregates.size + 1) v t := fun t => by
      apply cloneAt_congr
      rfl
    exact (hsource _).trans (blind_cloneAt s (s.aggregates.size + 1) v s ds)
  · simp only [hn, if_false, Bool.false_eq_true]

theorem blind_cloneAll (vs : List Value) : Blind (cloneAll vs) := by
  intro s ds
  simp only [cloneAll, blind_makeAll blind_clone vs s ds]

theorem blind_wrap (v : Value) : Blind (wrap v) := fun _ _ => rfl

theorem blind_box (v : Value) : Blind (box v) := by
  intro s ds
  simp only [box, blind_clone v s ds]
  rfl

theorem blind_setField (owner : Value) (index : Nat) (v : Value) : Blind fun s => ((), s.setField owner index v) := by
  intro s ds
  have howner : fieldOwner { s with delegates := ds } (s.boxes.size + 1) owner.datum =
      s.fieldOwner (s.boxes.size + 1) owner.datum := by
    apply fieldOwner_eq
    rfl
  unfold Store.setField
  dsimp only
  rw [howner]
  cases s.fieldOwner (s.boxes.size + 1) owner.datum <;> rfl

theorem blind_setItem (array : Value) (index : Nat) (v : Value) : Blind fun s => ((), s.setItem array index v) := by
  intro s ds
  unfold Store.setItem
  cases array.datum <;> rfl

theorem blind_newCell (U : Universe) (t : Option Ty) (v : Value) : Blind (newCell U t v) := by
  intro s ds
  have hcopy : ∀ (v : Value) (s : Store), addCell (clone v { s with delegates := ds }).2
      ⟨t, (clone v { s with delegates := ds }).1⟩ =
        ((addCell (clone v s).2 ⟨t, (clone v s).1⟩).1,
          { (addCell (clone v s).2 ⟨t, (clone v s).1⟩).2 with delegates := ds }) := by
    intro v s
    rw [blind_clone v s ds]
    rfl
  cases t with
  | none => exact hcopy v s
  | some u =>
    unfold newCell
    dsimp only
    split_ifs
    · rw [blind_zero U u s ds]
      exact hcopy _ _
    · exact hcopy v s

end Store

/-! ## Executions -/

variable {α β : Type}

/-- Both ends are successes with related results, or the same failure, in stores that are alike. -/
def OutcomesAlike (D : Delegate → Delegate → Prop) (S : α → β → Prop) :
    EStateM.Result Abort Store α → EStateM.Result Abort Store β → Prop
  | .ok a s, .ok b t => S a b ∧ s.Alike D t
  | .error e s, .error e' t => e' = e ∧ s.Alike D t
  | _, _ => False

namespace Exec

/-- The executions end in the same way from stores that are alike. -/
def Together (D : Delegate → Delegate → Prop) (S : α → β → Prop) (x : Exec α) (y : Exec β) : Prop :=
  ∀ ⦃s t : Store⦄, s.Alike D t → OutcomesAlike D S (x s) (y t)

abbrev Same (D : Delegate → Delegate → Prop) (x y : Exec α) : Prop := Together D Eq x y

end Exec

end TreeMachine
