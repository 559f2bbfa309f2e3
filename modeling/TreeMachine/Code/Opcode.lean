import TreeMachine.Types.Basic

/-!
# Opcodes

An instruction is an opcode byte followed by its operands, each one or two bytes wide, the high byte
first. `Opcode.operands` lists the widths, `Opcode.size` is the length of the whole instruction.
-/

namespace TreeMachine

inductive Opcode where
  | nop
  | pop
  | dup
  /-- `a b` becomes `b a b`. -/
  | dupX1
  /-- `a b c` becomes `c a b c`. -/
  | dupX2
  | const
  | pushNil
  | pushTrue
  | pushFalse
  | loadLocal
  | storeLocal
  /-- Moves the value of a slot into a fresh cell held by the same slot. -/
  | makeCell
  | loadCell
  | storeCell
  | loadFree
  | loadFreeCell
  | storeFreeCell
  | loadHost
  | storeHost
  | copy
  | newAggregate
  | newObject
  | getField
  | setField
  /-- Calls the method of the pool entry itself. -/
  | call
  | callVirtual
  | callInterface
  | invoke
  | closure
  | box
  | unbox
  | cast
  /-- Sees a scalar as another scalar type of the same width. -/
  | retag
  | widen
  | narrow
  | add
  | sub
  | mul
  | div
  | mod
  | neg
  | concat
  | equal
  | notEqual
  | sameRef
  | differentRef
  | less
  | lessEqual
  | greater
  | greaterEqual
  | not
  | newArray
  | arrayOf
  | getElem
  | setElem
  | arrayLength
  | jump
  | jumpIfFalse
  | ret
  | retVoid
deriving DecidableEq, Repr, Inhabited

namespace Opcode

def table : Array Opcode :=
  #[nop, pop, dup, dupX1, dupX2, const, pushNil, pushTrue, pushFalse, loadLocal, storeLocal, makeCell,
    loadCell, storeCell, loadFree, loadFreeCell, storeFreeCell, loadHost, storeHost, copy, newAggregate,
    newObject, getField, setField, call, callVirtual, callInterface, invoke, closure, box, unbox, cast,
    retag, widen, narrow, add, sub, mul, div, mod, neg, concat, equal, notEqual, sameRef, differentRef,
    less, lessEqual, greater, greaterEqual, not, newArray, arrayOf, getElem, setElem, arrayLength, jump,
    jumpIfFalse, ret, retVoid]

def byte (op : Opcode) : UInt8 := UInt8.ofNat op.ctorIdx

def ofByte? (b : UInt8) : Option Opcode := table[b.toNat]?

@[simp] theorem ofByte?_byte (op : Opcode) : ofByte? op.byte = some op := by
  cases op <;> rfl

def name : Opcode → String
  | nop => "NOP"
  | pop => "POP"
  | dup => "DUP"
  | dupX1 => "DUP_X1"
  | dupX2 => "DUP_X2"
  | const => "CONST"
  | pushNil => "NIL"
  | pushTrue => "TRUE"
  | pushFalse => "FALSE"
  | loadLocal => "LOAD_LOCAL"
  | storeLocal => "STORE_LOCAL"
  | makeCell => "MAKE_CELL"
  | loadCell => "LOAD_CELL"
  | storeCell => "STORE_CELL"
  | loadFree => "LOAD_FREE"
  | loadFreeCell => "LOAD_FREE_CELL"
  | storeFreeCell => "STORE_FREE_CELL"
  | loadHost => "LOAD_HOST"
  | storeHost => "STORE_HOST"
  | copy => "COPY"
  | newAggregate => "NEW_AGG"
  | newObject => "NEW_OBJ"
  | getField => "GET_FIELD"
  | setField => "SET_FIELD"
  | call => "CALL"
  | callVirtual => "CALL_VIRT"
  | callInterface => "CALL_IFACE"
  | invoke => "INVOKE"
  | closure => "CLOSURE"
  | box => "BOX"
  | unbox => "UNBOX"
  | cast => "CAST"
  | retag => "RETAG"
  | widen => "WIDEN"
  | narrow => "NARROW"
  | add => "ADD"
  | sub => "SUB"
  | mul => "MUL"
  | div => "DIV"
  | mod => "MOD"
  | neg => "NEG"
  | concat => "CONCAT"
  | equal => "EQ"
  | notEqual => "NE"
  | sameRef => "REF_EQ"
  | differentRef => "REF_NE"
  | less => "LT"
  | lessEqual => "LE"
  | greater => "GT"
  | greaterEqual => "GE"
  | not => "NOT"
  | newArray => "NEW_ARRAY"
  | arrayOf => "ARRAY_INIT"
  | getElem => "GET_ELEM"
  | setElem => "SET_ELEM"
  | arrayLength => "ARRAY_LEN"
  | jump => "JUMP"
  | jumpIfFalse => "JUMP_IF_FALSE"
  | ret => "RETURN"
  | retVoid => "RETURN_VOID"

inductive Width where
  | one
  | two
deriving DecidableEq, Repr

def Width.bytes : Width → Nat
  | .one => 1
  | .two => 2

def operands : Opcode → List Width
  | loadLocal | storeLocal | makeCell | loadCell | storeCell | loadFree | loadFreeCell | storeFreeCell
  | getField | setField | widen | narrow => [.one]
  | const | loadHost | storeHost | newAggregate | newObject | call | callVirtual | callInterface
  | closure | box | unbox | cast | retag | newArray | jump | jumpIfFalse => [.two]
  | invoke => [.one, .one]
  | arrayOf => [.two, .two]
  | _ => []

def size (op : Opcode) : Nat := (op.operands.map Width.bytes).foldr (· + ·) 1

/-- The number of values an instruction removes from the operand stack and the number it adds.
`none` marks a number that the operands decide. -/
def effect : Opcode → Option Nat × Option Nat
  | nop | makeCell | jump | retVoid => (some 0, some 0)
  | pop | storeLocal | storeCell | storeFreeCell | storeHost | jumpIfFalse | ret => (some 1, some 0)
  | dup => (some 1, some 2)
  | dupX1 => (some 2, some 3)
  | dupX2 => (some 3, some 4)
  | const | pushNil | pushTrue | pushFalse | loadLocal | loadCell | loadFree | loadFreeCell | loadHost
  | newAggregate | newObject | closure => (some 0, some 1)
  | copy | getField | box | unbox | cast | retag | widen | narrow | neg | not | newArray
  | arrayLength => (some 1, some 1)
  | setField => (some 2, some 0)
  | call | callVirtual | callInterface | invoke => (none, none)
  | add | sub | mul | div | mod | concat | equal | notEqual | sameRef | differentRef | less | lessEqual
  | greater | greaterEqual | getElem => (some 2, some 1)
  | arrayOf => (none, some 1)
  | setElem => (some 3, some 0)

def nameOfByte (b : UInt8) : String :=
  match ofByte? b with
  | some op => op.name
  | none =>
    let digits := (Nat.toDigits 16 b.toNat).map Char.toUpper
    "UNKNOWN_" ++ String.ofList (List.replicate (2 - digits.length) '0' ++ digits)

end Opcode

end TreeMachine
