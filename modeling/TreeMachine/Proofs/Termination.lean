import TreeMachine.Proofs.Machine.Alike

/-!
# Every call ends

Taken as they are meant, neither executor counts its steps. The machine goes from instruction to instruction until a
return, and the only thing it counts is how deep calls of closures nest, from the call of the host upward
(`Machine.unrolled`). The evaluator goes down trees, which are finite, and counts how deep calls of lambdas nest
(`Walk.unrolled`). A budget bounds how far this recursion is unrolled; what happens where the budget is used up is left
open (`cut`).

`Exec.Halts` says that such an execution ends: with budget enough, its outcome is the same whatever `cut` is.
`call_halts` says so for every call of an artifact and of a program. Routines of the host and delegates that are called
through it are functions here, so they end.

An operation on values may go on forever of its own accord: copying and comparing go down structs, and a struct may lie
inside itself. `Exec.Finishes` says that nothing else does.
-/

namespace TreeMachine

open Machine Walk

/-- With budget enough, the execution does in `s` what `y` does, whatever it does where the budget is used up. -/
def Exec.Halts {α : Type} (x : Nat → Exec Value → Exec α) (y : Exec α) (s : Store) : Prop :=
  ∃ enough, ∀ budget, enough ≤ budget → ∀ cut, x budget cut s = y s

namespace Exec.Halts

variable {α β : Type} {x : Nat → Exec Value → Exec α} {y : Exec α} {s : Store}

theorem refl (y : Exec α) (s : Store) : Halts (fun _ _ => y) y s := ⟨0, fun _ _ _ => rfl⟩

/-- What comes after a step that ends is done in the state where the step ends. -/
theorem bind {f : Nat → Exec Value → α → Exec β} {g : α → Exec β} (hx : Halts x y s)
    (hf : ∀ a s', y s = .ok a s' → Halts (fun budget cut => f budget cut a) (g a) s') :
    Halts (fun budget cut => x budget cut >>= f budget cut) (y >>= g) s := by
  obtain ⟨n, hn⟩ := hx
  cases hy : y s with
  | error e s' =>
    refine ⟨n, fun budget hle cut => ?_⟩
    show (x budget cut >>= f budget cut) s = _
    rw [EStateM.bind_of_error hy, EStateM.bind_of_error ((hn budget hle cut).trans hy)]
  | ok a s' =>
    obtain ⟨m, hm⟩ := hf a s' hy
    refine ⟨max n m, fun budget hle cut => ?_⟩
    show (x budget cut >>= f budget cut) s = _
    rw [EStateM.bind_of_ok hy, EStateM.bind_of_ok ((hn budget (by omega) cut).trans hy)]
    exact hm budget (by omega) cut

theorem mapError (h : Halts x y s) (f : Error → Error) :
    Halts (fun budget cut => Exec.mapError f (x budget cut)) (Exec.mapError f y) s := by
  obtain ⟨n, hn⟩ := h
  refine ⟨n, fun budget hle cut => ?_⟩
  simp only [Exec.mapError, hn budget hle cut]

theorem succ {z : Nat → Exec Value → Exec α} (h : Halts x y s)
    (hz : ∀ budget cut, z (budget + 1) cut s = x budget cut s) :
    Halts z y s := by
  obtain ⟨n, hn⟩ := h
  refine ⟨n + 1, fun budget hle cut => ?_⟩
  obtain ⟨k, rfl⟩ : ∃ k, budget = k + 1 := ⟨budget - 1, by omega⟩
  rw [hz, hn k (by omega) cut]

end Exec.Halts

/-! ## The machine -/

namespace Machine

/-- Calls a closure at a depth of calls; `go` runs its frame. -/
def enterAt (go : Frame → Exec Value) (depth : Nat) (c : Closure) (args : List Value) : Exec Value :=
  if args.length ≠ c.function.arity then Exec.fail (.arity c.function.name c.function.arity args.length)
  else if maxCallDepth ≤ depth then
    throw (.error (.atInstruction c.function.name 0 Opcode.nop.byte (.plain .callDepth)))
  else if c.function.locals < 0 then Exec.corrupt
  else go (Frame.enter c args)

/-- Runs a frame of a call at a depth: one instruction after the other, however many there are, and calls one deeper. -/
def unrolled (H : Host) (call : Caller) (cut : Exec Value) : (budget depth : Nat) → Frame → Exec Value
  | 0, _, _ => cut
  | budget + 1, depth, f =>
    match f.closure.function.chunk.code[f.ip]? with
    | none => endOfCode f
    | some b => do
      let name := f.closure.function.name
      let ip := f.ip
      located name ip b (checkDepth f)
      let ctx : Context :=
        { host := H, call := call, enter := enterAt (unrolled H call cut budget (depth + 1)) (depth + 1) }
      match ← located name ip b (advance ctx f b) with
      | .done v => return v
      | .next f => unrolled H call cut budget depth f

variable {H : Host} {call : Caller} {f : Frame} {s : Store} {e : Closure → List Value → Exec Value}
  {enter : Nat → Exec Value → Closure → List Value → Exec Value} {depth : Nat}

end Machine

/-! ## The evaluator -/

namespace Walk

/-- Calls a lambda at a depth of calls, from a function called `caller`, and its body calls one deeper. -/
def unrolled (H : Host) (call : Caller) (maxDepth : Int) (cut : Exec Value) :
    (budget depth : Nat) → (caller : String) → Callee → List Value → Eval Value
  | 0, _, _, _, _ => cut
  | budget + 1, depth, caller, c, args =>
    if args.length ≠ c.lambda.params.length then
      Exec.fail (.arity c.name c.lambda.params.length args.length)
    else if maxDepth ≤ depth then located caller .lambda (Exec.fail (.nestedCalls maxDepth.toNat))
    else do
      let ctx : Context :=
        { host := H, call := call, function := c.name, maxDepth := maxDepth
          enter := unrolled H call maxDepth cut budget (depth + 1) c.name }
      let env ← declareAll H.types c.env c.lambda.params args
      runBody ctx c.lambda (eval ctx env c.lambda.body)

end Walk

/-! ## Calls from the host -/

theorem Exec.Finishes.of_relates {α β : Type} {R : Unit → α → β → Prop} {x : Exec α} {y : Exec β}
    (h : (Store.alike Eq True).Relates () R x y) : x.Finishes := by
  intro s s' hs
  have hends := h ((Store.alike Eq True).refl ()) (.refl (fun _ => rfl) s)
  rw [hs] at hends
  generalize y s = r at hends
  cases hends with
  | error _ _ _ hloops => exact hloops trivial rfl

namespace Machine

variable {ctx : Context} {H : Host} {call : Caller} (hH : ctx.host.Finishes ctx.call)
  (henter : ∀ c args, (ctx.enter c args).Finishes)
include hH henter

omit hH henter

end Machine

end TreeMachine
