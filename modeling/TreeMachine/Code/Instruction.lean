import TreeMachine.Fault

/-!
# Instructions

`Instruction` is what the machine executes: an opcode with its operands, where operands that are
places in the constant pool are replaced by what stands there. `Instruction.fetch` reads the
instruction at an offset.
-/

namespace TreeMachine

inductive Arithmetic where
  | add
  | sub
  | mul
  | div
  | mod
deriving DecidableEq, Repr

inductive Comparison where
  | less
  | lessEqual
  | greater
  | greaterEqual
deriving DecidableEq, Repr

inductive Instruction where
  | nop
  | pop
  | dup
  | dupX1
  | dupX2
  | push (v : Value)
  | loadLocal (slot : Nat)
  | storeLocal (slot : Nat)
  | makeCell (slot : Nat)
  | loadCell (slot : Nat)
  | storeCell (slot : Nat)
  | loadFree (index : Nat)
  | loadFreeCell (index : Nat)
  | storeFreeCell (index : Nat)
  | loadHost (cell : Loc)
  | storeHost (cell : Loc)
  | copy
  | newAggregate (t : Option Ty)
  | newObject (t : Option Ty)
  | getField (index : Nat)
  | setField (index : Nat)
  | call (m : Method)
  | callDynamic (m : Method)
  | invoke (args results : Nat)
  | closure (function : Nat)
  | box
  | unbox (t : Option Ty)
  | cast (t : Option Ty)
  | retag (t : Option Ty)
  | convert (primitive : Nat)
  | arithmetic (op : Arithmetic)
  | neg
  | concat
  | equal (positive : Bool)
  | sameRef (positive : Bool)
  | compare (op : Comparison)
  | not
  | newArray (elem : Option Ty)
  | arrayOf (elem : Option Ty) (count : Nat)
  | getElem
  | setElem
  | arrayLength
  | jump (target : Nat)
  | jumpIfFalse (target : Nat)
  | ret
  | retVoid
deriving Repr

inductive FetchFault where
  | panic (p : Panic)
  | cause (c : Cause)
deriving DecidableEq, Repr

def FetchFault.raise {α : Type} : FetchFault → Exec α
  | panic p => Exec.panic p
  | cause c => Exec.fail c

abbrev Fetch := StateT Nat (Except FetchFault)

namespace Fetch

def byte (c : Chunk) : Fetch Nat := fun offset =>
  match c.code[offset]? with
  | some b => .ok (b.toNat, offset + 1)
  | none => .error (.panic .truncatedCode)

def pair (c : Chunk) : Fetch Nat := do
  let high ← byte c
  let low ← byte c
  return high * 256 + low

def constant (c : Chunk) : Fetch Constant := do
  match c.constants[← pair c]? with
  | some k => return k
  | none => throw (.panic .invalidConstant)

def type (c : Chunk) : Fetch (Option Ty) := do
  match ← constant c with
  | .type t => return t
  | _ => throw (.panic .invalidConstant)

def method (c : Chunk) : Fetch Method := do
  match ← constant c with
  | .method m => return m
  | _ => throw (.panic .invalidConstant)

def cell (c : Chunk) : Fetch Loc := do
  match ← constant c with
  | .cell loc => return loc
  | _ => throw (.panic .invalidConstant)

/-- Reads a jump distance, which counts from the end of the instruction. -/
def target (c : Chunk) : Fetch Nat := do
  let distance ← pair c
  return (← get) + distance

end Fetch

namespace Instruction

open Fetch

def operands (c : Chunk) : Opcode → Fetch Instruction
  | .nop => return nop
  | .pop => return pop
  | .dup => return dup
  | .dupX1 => return dupX1
  | .dupX2 => return dupX2
  | .const => do
    match ← constant c with
    | .value v => return push v
    | _ => throw (.cause .invalidConstant)
  | .pushNil => return push .nil
  | .pushTrue => return push (.ofBool true)
  | .pushFalse => return push (.ofBool false)
  | .loadLocal => loadLocal <$> byte c
  | .storeLocal => storeLocal <$> byte c
  | .makeCell => makeCell <$> byte c
  | .loadCell => loadCell <$> byte c
  | .storeCell => storeCell <$> byte c
  | .loadFree => loadFree <$> byte c
  | .loadFreeCell => loadFreeCell <$> byte c
  | .storeFreeCell => storeFreeCell <$> byte c
  | .loadHost => loadHost <$> cell c
  | .storeHost => storeHost <$> cell c
  | .copy => return copy
  | .newAggregate => newAggregate <$> type c
  | .newObject => newObject <$> type c
  | .getField => getField <$> byte c
  | .setField => setField <$> byte c
  | .call => call <$> method c
  | .callVirtual => callDynamic <$> method c
  | .callInterface => callDynamic <$> method c
  | .invoke => invoke <$> byte c <*> byte c
  | .closure => do
    match ← constant c with
    | .function i => return closure i
    | _ => throw (.cause .invalidConstant)
  | .box => do
    let _ ← type c
    return box
  | .unbox => unbox <$> type c
  | .cast => cast <$> type c
  | .retag => retag <$> type c
  | .widen => convert <$> byte c
  | .narrow => convert <$> byte c
  | .add => return arithmetic .add
  | .sub => return arithmetic .sub
  | .mul => return arithmetic .mul
  | .div => return arithmetic .div
  | .mod => return arithmetic .mod
  | .neg => return neg
  | .concat => return concat
  | .equal => return equal true
  | .notEqual => return equal false
  | .sameRef => return sameRef true
  | .differentRef => return sameRef false
  | .less => return compare .less
  | .lessEqual => return compare .lessEqual
  | .greater => return compare .greater
  | .greaterEqual => return compare .greaterEqual
  | .not => return not
  | .newArray => newArray <$> type c
  | .arrayOf => arrayOf <$> type c <*> pair c
  | .getElem => return getElem
  | .setElem => return setElem
  | .arrayLength => return arrayLength
  | .jump => jump <$> target c
  | .jumpIfFalse => jumpIfFalse <$> target c
  | .ret => return ret
  | .retVoid => return retVoid

/-- The instruction that starts with byte `b` at offset `ip`, and the offset behind it. -/
def fetch (c : Chunk) (ip : Nat) (b : UInt8) : Except FetchFault (Instruction × Nat) :=
  match Opcode.ofByte? b with
  | some op => (operands c op).run (ip + 1)
  | none => .error (.cause (.unknownOpcode b))

end Instruction

def Arithmetic.opcode : Arithmetic → Opcode
  | add => .add
  | sub => .sub
  | mul => .mul
  | div => .div
  | mod => .mod

end TreeMachine
