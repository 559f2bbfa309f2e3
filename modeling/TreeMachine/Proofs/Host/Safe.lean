import TreeMachine.Proofs.Store.World
import TreeMachine.Proofs.Walk.Agreement

/-!
# Safe hosts

The methods of a host whose routines are safe keep worlds sound, and so does calling a lambda of a tree
(`Walk.keepsPlain_callFromHost`). A script reaches no cells but those that its receiver, its arguments and the
store refer to. So a host whose routines are scripts is safe (`safe_of_scripts`), unless it writes a cell down
as a value.
-/

namespace TreeMachine

open Exec (KeepsPlain)

variable {H : Host} {call : Caller} {w : World} {args : List Value}

def World.trees : World.correspondence.Trees where
  Allows w e := e.Plain w.shown
  later h he := he.mono h.shown
  constant h := h.constant
  child h hc := h.child hc
  same h := .inl h.1
  lambda := ⟨fun h => h.2, fun h => ⟨rfl, h⟩⟩

theorem Caller.Safe.callers (h : Caller.Safe call) : World.correspondence.Callers call call := by
  intro w d d' args hd hargs
  obtain ⟨rfl, hd⟩ := hd
  exact World.agrees_of_keeps fun w' hext hw => h hw (hd.mono hext.shown) fun v hv => (hargs v hv).mono hext.shown

theorem Host.Safe.routines (hH : H.Safe) (hcall : Caller.Safe call) :
    ∀ r ∈ H.routines, World.correspondence.Routines H.types call call r :=
  fun r hr _ _ _ hself hargs => World.agrees_of_keeps fun _ hext hw =>
    hH r hr H.types hcall hw (hself.mono hext.shown) fun v hv => (hargs v hv).mono hext.shown

theorem Script.Writes.safe {p : Script} (h : p.Writes (¬ ·.IsCell)) : Routine.Safe p.routine := by
  intro U call w self args hcall hw hself hargs
  have hP : ∀ v : Value, ¬v.IsCell → ∀ w : World, v.Plain w.shown :=
    fun v hv _ => Value.plain_of_ne fun loc hloc => hv ⟨loc, hloc⟩
  exact .of_agrees (h.routines hP hcall.callers hself hargs) hw

theorem safe_of_scripts {scripts : List Script} (hroutines : H.routines.toList = scripts.map Script.routine)
    (h : ∀ p ∈ scripts, p.Writes (¬ ·.IsCell)) : H.Safe := by
  intro r hr
  obtain ⟨p, hp, rfl⟩ := List.mem_map.1 (hroutines ▸ Array.mem_toList_iff.2 hr)
  exact (h p hp).safe

theorem Walk.keepsPlain_callFromHost (hH : H.Safe) (hcall : Caller.Safe call) (maxDepth : Int) {c : Callee}
    (hw : w.Sound) (hc : c.lambda.body.Plain w.shown) (hargs : ∀ v ∈ args, v.Plain w.shown) :
    KeepsPlain w (callFromHost H call maxDepth c args) :=
  Exec.Keeps.of_agrees (Walk.agrees_callFromHost (T := World.trees) (hH.routines hcall) hcall.callers maxDepth
    hc hargs) hw

end TreeMachine
