import TreeMachine.Codegen.Error
import TreeMachine.Options

/-!
# Emitting code

The state of a compilation, and the steps that change it: pool entries, instructions with their
modeled effect on the operand stack, forward jumps, slots. Every step names the kind of the node it
works for, which is where a limit or fault is reported.
-/

namespace TreeMachine

inductive Place where
  | slot
  | slotCell
  | free
  | freeCell
deriving DecidableEq, Repr

namespace Place

def isCell : Place → Bool
  | slotCell | freeCell => true
  | slot | free => false

def source : Place → CaptureSource
  | slot => .slot
  | slotCell => .slotCell
  | free => .free
  | freeCell => .freeCell

def load : Place → Opcode
  | slot => .loadLocal
  | slotCell => .loadCell
  | free => .loadFree
  | freeCell => .loadFreeCell

/-- The instruction that stores to the variable; copies cannot be stored to. -/
def store? : Place → Option Opcode
  | slot => some .storeLocal
  | slotCell => some .storeCell
  | free => none
  | freeCell => some .storeFreeCell

end Place

/-- A variable in scope: where it lives, and its number if the capture pass declared it. -/
structure Binding where
  place : Place
  index : Nat
  number : Option Nat
deriving DecidableEq, Repr

abbrev Bindings := List (Nat × Binding)

structure FunctionState where
  name : String
  chunk : Chunk := {}
  stack : ModelStack := {}
  slots : Slots := {}
  env : Bindings := []
deriving Inhabited

structure CodegenState where
  functions : Image := #[]
  hostCells : Array Loc := #[]
  names : Nat := 0
  function : FunctionState
deriving Inhabited

abbrev Codegen := EStateM CompileError CodegenState

namespace Codegen

structure Context where
  types : Universe
  captures : Captures
  options : Options

def decline {α : Type} (kind : Kind) (reason : Declined) : Codegen α := throw (.unsupported kind reason)

def fault {α : Type} (kind : Kind) (f : CodegenFault) : Codegen α := throw (.internal kind f)

def planned {α : Type} (kind : Kind) (reason : PlanError → Declined) : Except PlanError α → Codegen α
  | .ok a => pure a
  | .error e => decline kind (reason e)

def needType (kind : Kind) : Option Ty → Codegen Ty
  | some t => pure t
  | none => fault kind .missing

@[inline] def modifyFunction (f : FunctionState → FunctionState) : Codegen Unit :=
  modify fun s => { s with function := f s.function }

/-! ### The modeled stack -/

/-- An entry that nothing else holds. -/
def owned (t : Ty) : StackEntry := { type := some t }

/-- An entry that is existing storage. -/
def aliased (t : Ty) : StackEntry := { type := some t, addressable := true }

def peek (kind : Kind) (n : Nat) : Codegen StackEntry := do
  match (← get).function.stack.peek n with
  | .ok e => return e
  | .error f => fault kind (.stack f)

def replaceTop (kind : Kind) (e : StackEntry) : Codegen Unit := do
  let _ ← peek kind 0
  modifyFunction fun f => { f with stack := (f.stack.drop 1).push e }

/-! ### Instructions -/

def maxConstants : Nat := 65536

def constant (kind : Kind) (k : Constant) : Codegen Nat := do
  let i ← modifyGet fun s =>
    let f := s.function
    let (i, c) := f.chunk.addConstant k
    (i, { s with function := { f with chunk := c } })
  if maxConstants ≤ i then decline kind (.limit .constants) else return i

/-- The first operand that is too large for its width. -/
def oversized? : List Opcode.Width → List Nat → Option Nat
  | .one :: ws, v :: vs => if v < 256 then oversized? ws vs else some v
  | .two :: ws, v :: vs => if v < 65536 then oversized? ws vs else some v
  | _, _ => none

/-- Why an instruction cannot be emitted, or else the number of entries it removes. -/
def checkEmit (kind : Kind) (op : Opcode) (operands : List Nat) (results : List StackEntry)
    (f : FunctionState) : Except CompileError Nat :=
  if operands.length ≠ op.operands.length then
    .error (.internal kind (.operandCount op op.operands.length operands.length))
  else
    match Effect.of op operands f.chunk.constants with
    | .error e => .error (.internal kind (.effect e))
    | .ok effect =>
      if results.length ≠ effect.push then
        .error (.internal kind (.resultCount op effect.push results.length))
      else
        match oversized? op.operands operands with
        | some v => .error (.unsupported kind (.limit (.operand op v)))
        | none =>
          if effect.pop ≤ f.stack.depth then .ok effect.pop
          else .error (.internal kind (.stack .pop))

def writeOperands : List Opcode.Width → List Nat → Chunk → Chunk
  | .one :: ws, v :: vs, c => writeOperands ws vs (c.write v.toUInt8 (-1))
  | .two :: ws, v :: vs, c =>
    writeOperands ws vs ((c.write (v / 256).toUInt8 (-1)).write (v % 256).toUInt8 (-1))
  | _, _, c => c

def writeInstruction (op : Opcode) (operands : List Nat) (pop : Nat) (results : List StackEntry)
    (f : FunctionState) : FunctionState :=
  let depth := f.stack.depth
  { f with
    chunk := writeOperands op.operands operands (f.chunk.write op.byte depth)
    stack := results.foldl ModelStack.push (f.stack.drop pop) }

/-- Emits an instruction. `results` describe the entries it adds, the lowest first. -/
def emit (kind : Kind) (op : Opcode) (operands : List Nat) (results : List StackEntry) : Codegen Unit := fun s =>
  match checkEmit kind op operands results s.function with
  | .error e => .error e s
  | .ok pop => .ok () { s with function := writeInstruction op operands pop results s.function }

def here : Codegen Nat := do return (← get).function.chunk.code.size

/-- Emits a jump that leads nowhere yet; gives the offset of its operand. -/
def emitJump (kind : Kind) (op : Opcode) : Codegen Nat := do
  let offset ← here
  emit kind op [65535] []
  return offset + 1

def maxJump : Nat := 65535

/-- Lets the jump whose operand is at an offset lead to the next instruction. -/
def patchJump (kind : Kind) (offset : Nat) : Codegen Unit := do
  let distance := (← here) - offset - 2
  if maxJump < distance then decline kind (.limit .jump)
  else
    modifyFunction fun f =>
      { f with
        chunk := { f.chunk with
          code := (f.chunk.code.setIfInBounds offset (distance / 256).toUInt8).setIfInBounds
            (offset + 1) (distance % 256).toUInt8 } }

/-! ### Slots -/

def slotError {α : Type} (kind : Kind) (e : SlotError) : Codegen α :=
  match e.meaning with
  | .inl f => fault kind f
  | .inr l => decline kind (.limit l)

def openScope : Codegen Int :=
  modifyGet fun s =>
    let (id, slots) := s.function.slots.openScope
    (id, { s with function := { s.function with slots := slots } })

def allocate (kind : Kind) (t : Option Ty) (name : String) (capture : CaptureMode) (scope : Int) :
    Codegen Nat := do
  match (← get).function.slots.allocate t name capture scope with
  | .ok (i, slots) =>
    modifyFunction fun f => { f with slots := slots }
    return i
  | .error e => slotError kind e

def release (kind : Kind) (scope : Int) : Codegen Unit := do
  match (← get).function.slots.release scope with
  | .ok slots => modifyFunction fun f => { f with slots := slots }
  | .error e => slotError kind e

def withTemp (kind : Kind) (t : Ty) (x : Nat → Codegen Unit) : Codegen Unit := do
  let scope ← openScope
  let slot ← allocate kind (some t) "" .none scope
  x slot
  release kind scope

/-! ### Conversions -/

/-- Makes the top a value that nothing else holds: existing storage of a struct is copied. -/
def own (ctx : Context) (kind : Kind) : Codegen Unit := do
  let top ← peek kind 0
  match top.type with
  | some t => if ctx.types.isAggregate t && top.addressable then emit kind .copy [] [owned t]
  | none => pure ()

def emitStep (ctx : Context) (kind : Kind) (target : Ty) : ConversionStep → Codegen Unit
  | .box t => do
    own ctx kind
    emit kind .box [← constant kind (.type t)] [owned target]
  | .unbox t => do emit kind .unbox [← constant kind (.type t)] [aliased t]
  | .cast t => do emit kind .cast [← constant kind (.type t)] [owned t]
  | .retag t => do emit kind .retag [← constant kind (.type t)] [owned t]
  | .widen t => emit kind .widen [number t] [owned t]
  | .narrow t => emit kind .narrow [number t] [owned t]
where
  number (t : Ty) : Nat := ((ctx.types.primitive? t).map Primitive.number).getD 0

def emitSteps (ctx : Context) (kind : Kind) (target : Ty) : List ConversionStep → Codegen Unit
  | [] => pure ()
  | p :: ps => do
    emitStep ctx kind target p
    emitSteps ctx kind target ps

def convert (ctx : Context) (kind : Kind) (p : Plan) : Codegen Unit := do
  if p.isIdentity then return ()
  else
    let target ← needType kind p.target
    match p.steps with
    | [] =>
      let top ← peek kind 0
      replaceTop kind { type := some target, addressable := top.addressable }
    | steps => emitSteps ctx kind target steps

end Codegen

end TreeMachine
