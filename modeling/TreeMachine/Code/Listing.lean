import TreeMachine.Value.Display

/-!
# Listings

A function is listed instruction by instruction, each line with its offset, the recorded depth of the
operand stack if there is one, the name of the opcode and its operands. The function a closure is made
from is listed indented below the instruction that makes it.
-/

namespace TreeMachine

namespace Listing

def padRight (width : Nat) (s : String) : String :=
  s ++ String.ofList (List.replicate (width - s.length) ' ')

def padLeft (width : Nat) (s : String) : String :=
  String.ofList (List.replicate (width - s.length) ' ') ++ s

def offsetText (n : Nat) : String :=
  let digits := toString n
  String.ofList (List.replicate (4 - digits.length) '0') ++ digits

def column (op : Opcode) (n : Nat) : String :=
  padRight 16 op.name ++ " " ++ padLeft 4 (toString n)

def constantText (U : Universe) (s : Store) (image : Image) (c : Chunk) (i : Nat) : String :=
  match c.constants[i]? with
  | none => "(invalid)"
  | some (.value v) => s.render U v
  | some (.method m) => U.describe m
  | some (.type t) => U.nameOf t
  | some (.cell loc) => "cell " ++ U.nameOf ((s.cells[loc]?).bind (·.type))
  | some (.function f) => (image.getD f default).name
  | some (.remark r) => r

def quoted (s : String) : String :=
  let mark := String.singleton (Char.ofNat 39)
  mark ++ s ++ mark

inductive Style where
  | plain
  | byte
  | constant
  | primitive
  | invocation
  | items
  | jump
  | closure

/-- How many bytes on the next instruction is looked for. -/
def Style.step : Style → Nat
  | plain => 1
  | byte | primitive => 2
  | constant | invocation | jump | closure => 3
  | items => 5

def styleOf : Opcode → Style
  | .const | .newAggregate | .newObject | .box | .unbox | .cast | .retag | .newArray | .loadHost
  | .storeHost | .call | .callVirtual | .callInterface => .constant
  | .loadLocal | .storeLocal | .makeCell | .loadCell | .storeCell | .loadFree | .loadFreeCell
  | .storeFreeCell | .getField | .setField => .byte
  | .widen | .narrow => .primitive
  | .invoke => .invocation
  | .arrayOf => .items
  | .jump | .jumpIfFalse => .jump
  | .closure => .closure
  | _ => .plain

/-- The operands of the instruction at an offset, as a listing reads them. -/
def operandsAt (c : Chunk) (offset : Nat) (op : Opcode) : List Nat :=
  let byte (k : Nat) := ((c.byte? (offset + k)).getD 0 : Nat)
  let pair (k : Nat) := (c.pair? (offset + k)).getD 0
  match styleOf op with
  | .plain => []
  | .byte | .primitive => [byte 1]
  | .invocation => [byte 1, byte 2]
  | .constant | .jump | .closure => [pair 1]
  | .items => [pair 1, pair 3]

def instructionText (U : Universe) (s : Store) (image : Image) (c : Chunk) (offset : Nat) (op : Opcode) : String :=
  let operands := operandsAt c offset op
  let first := operands.headD 0
  let second := operands.tail.headD 0
  match styleOf op with
  | .plain => op.name
  | .byte | .closure => column op first
  | .constant => column op first ++ " " ++ quoted (constantText U s image c first)
  | .primitive => column op first ++ " " ++ quoted (Primitive.nameOfNumber first)
  | .invocation => column op first ++ s!" (results: {second})"
  | .items => column op first ++ " " ++ quoted (constantText U s image c first) ++ s!" (items: {second})"
  | .jump => column op first ++ s!" -> {offset + 3 + first}"

/-- The offset of a line and the recorded depth. Where depths are recorded there must be one. -/
def margin (c : Chunk) (offset : Nat) : Option String :=
  match c.depths with
  | none => some (offsetText offset ++ " ")
  | some ds => ds[offset]?.map fun d => s!"{offsetText offset} [{padLeft 2 (toString d)}] "

def linesOf (s : String) : List String := s.splitOn "\n"

/-- The lines of the instruction at an offset, or there is none to list. `nested` lists the function at a
place of the image. -/
def linesAt (U : Universe) (s : Store) (image : Image) (nested : Nat → Option (List String)) (c : Chunk)
    (offset : Nat) (op : Opcode) : Option (List String) := do
  let line := (← margin c offset) ++ instructionText U s image c offset op
  match op with
  | .closure =>
    match c.constants[(operandsAt c offset op).headD 0]? with
    | some (.function f) =>
      let head := line ++ " " ++ quoted (image.getD f default).name
      return linesOf head ++ (← nested f).map ("    | " ++ ·)
    | _ => return linesOf (line ++ " (not a function)")
  | _ => return linesOf line

/-- The lines of the code from an offset on, latest first. Each instruction takes at least one byte, so `n`
need not exceed the size of the code. -/
def codeOnto (U : Universe) (s : Store) (image : Image) (nested : Nat → Option (List String))
    (c : Chunk) : (n : Nat) → (offset : Nat) → List String → Option (List String)
  | 0, _, acc => some acc
  | n + 1, offset, acc =>
    match c.code[offset]? with
    | none => some acc
    | some b =>
      match Opcode.ofByte? b with
      | none => do
        let start ← margin c offset
        codeOnto U s image nested c n (offset + 1) (s!"{start}Unknown opcode {b.toNat}" :: acc)
      | some op =>
        if c.code.size < offset + op.size then do
          return ((← margin c offset) ++ padRight 16 op.name ++ " (truncated)") :: acc
        else do
          let lines ← linesAt U s image nested c offset op
          codeOnto U s image nested c n (offset + (styleOf op).step) (lines.reverse ++ acc)

def captureText (k : Capture) : String :=
  s!"     capture {padRight 8 k.name} {k.source.name} {k.index}" ++ if k.byRef then " byref" else ""

def header (U : Universe) (f : Function) : String :=
  s!"== {f.name} {U.nameOf f.type} locals={f.locals} stack={f.maxStack} =="

def functionAt (U : Universe) (s : Store) (image : Image) :
    (n : Nat) → Function → Option (List String)
  | 0, _ => some []
  | n + 1, f => do
    let nested i := functionAt U s image n (image.getD i default)
    let code ← codeOnto U s image nested f.chunk f.chunk.code.size 0 []
    return linesOf (header U f) ++ code.reverse ++ f.captures.flatMap fun k => linesOf (captureText k)

/-- The listing of a function of an image; there is none if the recorded depths do not reach every
instruction. Functions refer to functions placed before them, so the number of functions bounds how
deep they nest. -/
def function (U : Universe) (s : Store) (image : Image) (f : Function) : Option (List String) :=
  functionAt U s image (image.size + 1) f

end Listing

end TreeMachine
