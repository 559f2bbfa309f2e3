import TreeMachine.Machine.Run
import TreeMachine.Walk.Program

/-!
# Callables

What a host can call: delegates, artifacts and programs. Host routines may call delegates back, which
may reach host routines again; `reentry` bounds how often one call does so.
-/

namespace TreeMachine

/-- How deep host routines and delegates call each other inside one call. -/
def reentry : Nat := 65536

/-- Calls a delegate where routines and delegates may call each other `n` deep; the host runs out of stack
below that. -/
def callDelegate (H : Host) : (n : Nat) → Caller
  | 0, _, _ => Exec.panic (.host "stack overflow")
  | n + 1, .compiled c, args => Machine.callFromHost H (callDelegate H n) c args
  | n + 1, .evaluated l name env maxDepth, args =>
    Walk.callFromHost H (callDelegate H n) maxDepth ⟨l, name, env⟩ args
  | n + 1, .host _ routine, args => do
    (Body.host (← Exec.getSome routine)).run H (callDelegate H n) .nil args

namespace Artifact

def arguments (U : Universe) (i : Nat) : List Value → List (Option Ty) → Exec (List Value)
  | v :: vs, t :: ts => do
    let x ← Exec.mapError (.atArgument i) do
      Exec.check U v t
      Exec.clone v
    return x :: (← arguments U (i + 1) vs ts)
  | _, _ => return []

def call (H : Host) (callBack : Caller) (a : Artifact) (args : List Value) : Exec Value := do
  if args.length ≠ a.params.length then
    Exec.fail (.arity a.main.name a.params.length args.length)
  else
    let values ← arguments H.types 0 args a.params
    Machine.invokeClosure H callBack { image := a.image, function := a.main, verify := a.verify } values

def shape (a : Artifact) : Shape := ⟨a.params, a.result⟩

end Artifact

inductive Callable where
  | artifact (a : Artifact)
  | program (p : Program)
  | delegate (d : Delegate)
deriving Inhabited

namespace Callable

def text : Callable → String
  | artifact a => s!"artifact <fn {a.main.name}>"
  | program p => s!"<program {p.name}>"
  | delegate d => d.text

def call (H : Host) (c : Callable) (args : List Value) : Exec Value :=
  match c with
  | artifact a => a.call H (callDelegate H reentry) args
  | program p => p.call H (callDelegate H reentry) args
  | delegate d => callDelegate H reentry d args

end Callable

end TreeMachine
