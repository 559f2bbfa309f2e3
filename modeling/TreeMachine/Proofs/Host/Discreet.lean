import TreeMachine.Proofs.Walk.Agreement

/-!
# Methods that only call delegates

What a host routine gets of a delegate is its location, and what it can do with it is to call it. A routine
that does no more is *discreet*: if delegates are replaced by others that do the same, so does the routine.

* **`Store.alike`** makes a correspondence of stores that differ in delegates only.
* **`Script.discreet`** proves that scripts are discreet, as they keep every correspondence.
-/

namespace TreeMachine

open Exec (Same Together)
open Store

variable {D : Delegate → Delegate → Prop} {call call' : Caller} {H : Host}

def Caller.Alike (D : Delegate → Delegate → Prop) (call call' : Caller) : Prop :=
  ∀ ⦃d d' : Delegate⦄, D d d' → ∀ args, Same D (call d args) (call' d' args)

def Routine.Discreet (r : Routine) : Prop :=
  ∀ ⦃D : Delegate → Delegate → Prop⦄, (∀ d, D d d) → ∀ ⦃call call' : Caller⦄, Caller.Alike D call call' →
    ∀ U self args, Same D (r U call self args) (r U call' self args)

def Host.Discreet (H : Host) : Prop := ∀ r ∈ H.routines, Routine.Discreet r

/-! ## The correspondence -/

/-- Stores that differ in related delegates. All values may be passed on; `E` says whether it is known that executions
come to an end. -/
def Store.alike (D : Delegate → Delegate → Prop) (E : Prop := False) : Correspondence where
  World := Unit
  Later _ _ := True
  Stores _ s t := s.Alike D t
  Passes _ _ := True
  Delegates _ := D
  Strict := False
  Ending := E
  refl _ := trivial
  trans _ _ := trivial
  passes_later _ h := h
  restricts _ _ _ := trivial
  retype h := h
  twins h := h.twins
  holds _ := ⟨fun _ _ _ _ => trivial, fun _ _ _ _ => trivial, fun _ _ => trivial, fun _ _ _ _ => trivial,
    fun _ _ => trivial⟩
  delegate v h := h.delegate v
  change {_ _ _ _ f} h hblind _ _ :=
    ⟨(), trivial, h.change (f := fun s => (f s).2) fun s ds => congrArg Prod.snd (hblind s ds)⟩
  addDelegate h hd := ⟨(h.addDelegate hd).1, (), trivial, (h.addDelegate hd).2⟩

/-- The executions do the same, up to related delegates. -/
abbrev Exec.Matched {α : Type} (D : Delegate → Delegate → Prop) (E : Prop) (x y : Exec α) : Prop :=
  (alike D E).Agrees () (fun _ _ => True) x y

theorem Exec.together_iff {α β : Type} {S : α → β → Prop} {x : Exec α} {y : Exec β} :
    Together D S x y ↔ (alike D).Relates () (fun _ => S) x y := by
  refine ⟨fun h _ _ s t hst => ?_, fun h s t hst => ?_⟩
  · have hxy := h hst
    cases hx : x s <;> cases hy : y t <;> simp only [hx, hy, OutcomesAlike] at hxy
    · exact .ok ((alike D).refl _) hxy.2 hxy.1
    · obtain ⟨rfl, hst'⟩ := hxy
      exact .error ((alike D).refl _) hst' False.elim False.elim
  · have hends := h ((alike D).refl ()) hst
    generalize x s = r at hends
    generalize y t = r' at hends
    cases hends with
    | ok _ hst' hab => exact ⟨hab, hst'⟩
    | error _ hst' => exact ⟨rfl, hst'⟩

theorem Exec.same_iff {α : Type} {x y : Exec α} : Same D x y ↔ Exec.Matched D False x y := by
  refine together_iff.trans ⟨fun h => h.imp fun _ _ _ _ hab => ⟨hab.symm, trivial⟩, fun h => h.imp ?_⟩
  exact fun _ _ _ _ hab => hab.1.symm

/-! ## Hosts -/

theorem Caller.Alike.callers (h : Caller.Alike D call call') : (alike D).Callers call call' :=
  fun _ _ _ args hd _ => Exec.same_iff.1 (h hd args)

theorem Host.Discreet.routines (hH : H.Discreet) (hD : ∀ d, D d d) (hcall : Caller.Alike D call call') :
    ∀ r ∈ H.routines, (alike D).Routines H.types call call' r :=
  fun r hr _ self args _ _ => Exec.same_iff.1 (hH r hr hD hcall H.types self args)

theorem Script.discreet (p : Script) : Routine.Discreet p.routine := by
  intro D _ call call' hcall U self args
  have hp : p.Writes fun _ => True := writes_of_forall (fun _ => trivial) p
  exact Exec.same_iff.2 (hp.routines (K := alike D) (fun _ _ _ => trivial) hcall.callers (w := ()) trivial
    fun _ _ => trivial)

theorem discreet_of_scripts {scripts : List Script} (h : H.routines.toList = scripts.map Script.routine) :
    H.Discreet := by
  intro r hr
  obtain ⟨p, -, rfl⟩ := List.mem_map.1 (h ▸ Array.mem_toList_iff.2 hr)
  exact p.discreet

/-! ## Trees -/

/-- Delegates are related to themselves, and a delegate that is related to another one is a function in
code. -/
structure Delegate.Relates (D : Delegate → Delegate → Prop) : Prop where
  refl : ∀ d, D d d
  code : ∀ {d d'}, D d d' → d' = d ∨ ∃ c c', d = .compiled c ∧ d' = .compiled c'

def Delegate.Relates.trees {E : Prop} (h : Delegate.Relates D) : (alike D E).Trees where
  Allows _ _ := True
  later _ h := h
  constant _ := trivial
  child _ _ := trivial
  same hd := h.code hd
  lambda := ⟨fun _ => trivial, fun _ => h.refl _⟩

end TreeMachine
