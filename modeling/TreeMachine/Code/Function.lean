import TreeMachine.Code.Opcode
import TreeMachine.Codegen.ModelStack
import TreeMachine.Value.Basic

/-!
# Functions in code

A function is a chunk of bytes with its constants and the sources of its captured variables. The
functions of one compilation form an image; they refer to each other by their place in it.
-/

namespace TreeMachine

inductive Constant where
  | value (v : Value)
  | type (t : Option Ty)
  | method (m : Method)
  | cell (loc : Loc)
  | function (index : Nat)
  | remark (s : String)
deriving DecidableEq, Repr, Inhabited

/-- Equal requests for the entry share one place in the pool. A value in a store has an identity of
its own and is never shared. -/
def Constant.isShareable : Constant → Bool
  | value v => !v.datum.isRef
  | remark _ => false
  | _ => true

structure Chunk where
  code : Array UInt8 := #[]
  constants : Array Constant := #[]
  /-- The depth of the operand stack before each instruction, and -1 at the bytes of operands;
  missing unless depths are recorded. -/
  depths : Option (Array Int) := none
deriving Repr, Inhabited

namespace Chunk

def write (c : Chunk) (b : UInt8) (depth : Int) : Chunk :=
  { c with code := c.code.push b, depths := c.depths.map (·.push depth) }

/-- The place of a constant in the pool, which gets a new entry unless it has an equal one to share. -/
def addConstant (c : Chunk) (k : Constant) : Nat × Chunk :=
  match if k.isShareable then c.constants.findIdx? (· = k) else none with
  | some i => (i, c)
  | none => (c.constants.size, { c with constants := c.constants.push k })

def byte? (c : Chunk) (offset : Nat) : Option Nat := (c.code[offset]?).map UInt8.toNat

def pair? (c : Chunk) (offset : Nat) : Option Nat := do
  let high ← c.byte? offset
  let low ← c.byte? (offset + 1)
  return high * 256 + low

def operandsAt? (c : Chunk) : List Opcode.Width → Nat → Option (List Nat)
  | [], _ => some []
  | .one :: ws, offset => do
    let n ← c.byte? offset
    return n :: (← operandsAt? c ws (offset + 1))
  | .two :: ws, offset => do
    let n ← c.pair? offset
    return n :: (← operandsAt? c ws (offset + 2))

def operands? (c : Chunk) (offset : Nat) : Option (List Nat) := do
  let b ← c.code[offset]?
  match Opcode.ofByte? b with
  | some op => c.operandsAt? op.operands (offset + 1)
  | none => return []

end Chunk

/-- Where a closure finds a captured variable when it is made. -/
inductive CaptureSource where
  | slot
  | slotCell
  | free
  | freeCell
  /-- Nothing in the frame or closure: the capture is the value without a type. -/
  | absent
deriving DecidableEq, Repr, Inhabited

namespace CaptureSource

def name : CaptureSource → String
  | slot => "local"
  | slotCell => "local-cell"
  | free => "free"
  | freeCell | absent => "free-cell"

def ofNumber : Nat → CaptureSource
  | 0 => slot
  | 1 => slotCell
  | 2 => free
  | 3 => freeCell
  | _ => absent

end CaptureSource

structure Capture where
  name : String
  source : CaptureSource
  index : Int
  /-- The closure shares the variable's cell instead of copying its value. -/
  byRef : Bool
deriving DecidableEq, Repr, Inhabited

/-- A function in code. Its numbers are what its maker says they are; a function that says something
impossible cannot be called. -/
structure Function where
  name : String
  chunk : Chunk := {}
  arity : Int := 0
  locals : Int := 0
  maxStack : Int := 0
  captures : List Capture := []
  type : Option Ty := none
deriving Inhabited

abbrev Image := Array Function

structure Closure where
  image : Image
  function : Function
  free : Array Value := #[]
  /-- Recorded depths are compared with the operand stack before each instruction. -/
  verify : Bool := false
deriving Inhabited

structure Artifact where
  image : Image
  main : Function
  params : List (Option Ty)
  result : Option Ty
  hostCells : List Loc := []
  verify : Bool := false
deriving Inhabited

end TreeMachine
