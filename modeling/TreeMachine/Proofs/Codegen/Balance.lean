import TreeMachine.Proofs.Codegen.SlotHistory
import TreeMachine.Proofs.Codegen.WellFormed

/-!
# What the code of a node leaves behind

The code of a node borrows slots, opens scopes, binds variables and takes snapshots of the modeled stack where it
branches. None of it is seen from outside: where the compilation of a node succeeds, the modeled stack has one more
entry, of the type of the node, or no more entry if the node is void, and all else is as before.
-/

namespace TreeMachine.Codegen

/-- **The code of a node has its declared effect** on the state of the compilation and no other. -/
theorem compile_balanced (ctx : Context) {e : Expr} {s s' : CodegenState} {reuse : Bool} {es : List Slots.Event}
    (hU : ctx.types.Declared) (hvoid : ctx.types.NonVoid) (he : e.Checked ctx.types)
    (hs : Slots.History reuse es s.function.slots) (h : compile ctx e s = .ok () s') :
    (match e.type with
      | some t => ∃ addressable, entries s' = entries s ++ [⟨some t, addressable⟩]
      | none => entries s' = entries s) ∧
    s'.function.slots.inner = s.function.slots.inner ∧ s'.function.slots.outer = s.function.slots.outer ∧
    (∀ (i : Nat) (sl : Slot), sl.live = true →
      (s'.function.slots.slots[i]? = some sl ↔ s.function.slots.slots[i]? = some sl)) ∧
    ∀ id, s'.function.env.lookup id = s.function.env.lookup id := by
  -- faults are of no concern here, so no scope needs a property
  have hyields := yields_compile hU (scoping_none ctx) he (hvoid.valued he) (P := fun _ => False) fun _ => id
  obtain ⟨added, hadded, hturned⟩ := (@hyields False s ⟨hs.ok.1, False.elim⟩).ok h
  refine ⟨?_, hturned.slots.inner, hturned.slots.outer, fun _ _ => hturned.slots.live, fun id => ?_⟩
  · have htop := hturned.top
    cases ht : e.type with
    | none =>
      rw [ht] at hadded
      obtain rfl : added = [] := hadded
      rw [htop, List.append_nil]
    | some t =>
      rw [ht] at hadded
      obtain ⟨addressable, rfl⟩ := hadded
      exact ⟨addressable, htop⟩
  · rw [hturned.env]

/-- A block whose variable is a closure that may be called. -/
def callMaybe : Expr :=
  let get : Var := ⟨2, "get", .declared 1⟩
  let one : Expr := .constant ⟨some .int32, .int 1⟩ (some .int32)
  .block 5 [get] [
    .assign (.var get) (.lambda 3 "" [] one (some .int32) (.declared 1)),
    .cond (.binary .less one one none .bool) one (.apply (.var get) [] (some .int32))]

def callMaybeContext : Context where
  types := Compiler.counterTypes
  captures := Captures.analyze Compiler.counterTypes ⟨4, "main", [], callMaybe, some .int32, .declared 1⟩ true
  options := .debug

/-- The value of the block is all that is left of it. -/
theorem callMaybe_balanced :
    ∃ s', compile callMaybeContext callMaybe { function := newFunction callMaybeContext "main" } = .ok () s' ∧
      (∃ addressable, entries s' = [⟨some .int32, addressable⟩]) ∧ s'.function.slots.inner = [] := by
  have hchecked : callMaybe.Checked callMaybeContext.types := Expr.checked_of_within 5 (by decide +kernel)
  have hok : (match compile callMaybeContext callMaybe { function := newFunction callMaybeContext "main" } with
      | .ok _ _ => true
      | .error _ _ => false) = true := by decide +kernel
  split at hok
  · rename_i s' hrun
    obtain ⟨htop, hinner, -⟩ := compile_balanced callMaybeContext Compiler.counterTypes_declared (by decide)
      hchecked (@Slots.History.nil true) hrun
    exact ⟨s', hrun, htop, hinner⟩
  · cases hok

end TreeMachine.Codegen
