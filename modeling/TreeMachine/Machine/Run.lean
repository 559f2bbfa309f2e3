import TreeMachine.Machine.Step

/-!
# Running code

A frame runs until it returns. Every instruction moves on in the code, so a frame ends after at most
as many instructions as its code has bytes; calls of closures nest at most `maxCallDepth` deep.
-/

namespace TreeMachine.Machine

def maxCallDepth : Nat := 1024

/-- Gives an error the location of an instruction, unless it has one already. -/
@[inline] def located {α : Type} (function : String) (ip : Nat) (byte : UInt8) (x : Exec α) : Exec α :=
  Exec.mapError (fun e => if e.hasInstruction then e else .atInstruction function ip byte e) x

def endOfCode (f : Frame) : Exec Value :=
  located f.closure.function.name f.ip Opcode.ret.byte (Exec.fail .truncatedCode)

def checkDepth (f : Frame) : Exec Unit :=
  match f.closure.verify, f.closure.function.chunk.depths with
  | true, some depths => do
    let want ← Exec.getSome depths[f.ip]?
    if want = f.stack.size then return ()
    else Exec.fail (.stackMismatch want f.stack.size)
  | _, _ => return ()

inductive Progress where
  | next (f : Frame)
  | done (v : Value)

def advance (ctx : Context) (f : Frame) (b : UInt8) : Exec Progress := do
  match Instruction.fetch f.closure.function.chunk f.ip b with
  | .error fault => fault.raise
  | .ok (.ret, _) => return .done (← f.pop).1
  | .ok (.retVoid, _) => return .done .nil
  | .ok (i, ip) => return .next (← execute ctx { f with ip := ip } i)

/-- Runs a frame for at most `n` instructions, which is enough if its code has no more bytes left. -/
def run (ctx : Context) : (n : Nat) → Frame → Exec Value
  | 0, f => endOfCode f
  | n + 1, f =>
    match f.closure.function.chunk.code[f.ip]? with
    | none => endOfCode f
    | some b => do
      let name := f.closure.function.name
      let ip := f.ip
      located name ip b (checkDepth f)
      match ← located name ip b (advance ctx f b) with
      | .done v => return v
      | .next f => run ctx n f

def callClosure (H : Host) (call : Caller) : (n : Nat) → Closure → List Value → Exec Value
  | n, c, args =>
    if args.length ≠ c.function.arity then
      Exec.fail (.arity c.function.name c.function.arity args.length)
    else
      match n with
      | 0 => throw (.error (.atInstruction c.function.name 0 Opcode.nop.byte (.plain .callDepth)))
      | n + 1 =>
        let ctx : Context := { host := H, call := call, enter := callClosure H call n }
        if c.function.locals < 0 then Exec.corrupt
        else run ctx c.function.chunk.code.size (Frame.enter c args)

/-- Turns panics into errors of the function that the host called. -/
def recovering {α : Type} (name : String) (x : Exec α) : Exec α := fun s =>
  match x s with
  | .error (.panic p) s => .error (.error (.atInstruction name (-1) Opcode.nop.byte (.recovered p))) s
  | r => r

def invokeClosure (H : Host) (call : Caller) (c : Closure) (args : List Value) : Exec Value :=
  recovering c.function.name (callClosure H call maxCallDepth c args)

def callFromHost (H : Host) (call : Caller) (c : Closure) (args : List Value) : Exec Value := do
  invokeClosure H call c (← Exec.cloneAll args)

end TreeMachine.Machine
