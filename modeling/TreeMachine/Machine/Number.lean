import TreeMachine.Code.Instruction

/-!
# Numbers in the machine

Arithmetic, comparison and conversion of the numbers on the operand stack. Integers wrap to the width
of the type of the left operand; division truncates toward zero.
-/

namespace TreeMachine.Machine

def integer (U : Universe) (t : Option Ty) (n : Int64) : Exec Value :=
  match t with
  | some u => return .integral U u n
  | none => Exec.corrupt

def floatArithmetic (op : Arithmetic) (x y : Binary64) : Binary64 :=
  match op with
  | .add => x.add y
  | .sub => x.sub y
  | .mul => x.mul y
  | .div => x.div y
  | .mod => x.mod y

def intArithmetic (op : Arithmetic) (x y : Int64) : Except Cause Int64 :=
  match op with
  | .add => .ok (x + y)
  | .sub => .ok (x - y)
  | .mul => .ok (x * y)
  | .div => if y = 0 then .error .divideByZero else .ok (x / y)
  | .mod => if y = 0 then .error .divideByZero else .ok (x % y)

def arithmetic (U : Universe) (op : Arithmetic) (a b : Value) : Exec Value :=
  match a.datum, b.datum with
  | .float x, _ => return .ofFloat (floatArithmetic op x b.asFloat)
  | .int _, .int _ => do
    integer U a.type (← Exec.ofExcept (intArithmetic op (a.asInt U) (b.asInt U)))
  | d, e => Exec.fail (.operands op.opcode d e)

def negate (U : Universe) (v : Value) : Exec Value :=
  match v.datum with
  | .float x => return .ofFloat x.negate
  | _ => integer U v.type (-(v.asInt U))

def compare (U : Universe) (op : Comparison) (a b : Value) : Bool :=
  match a.datum with
  | .float x =>
    let y := b.asFloat
    match op with
    | .less => x.less y
    | .lessEqual => x.lessEqual y
    | .greater => y.less x
    | .greaterEqual => y.lessEqual x
  | _ =>
    let x := a.asInt U
    let y := b.asInt U
    match op with
    | .less => x < y
    | .lessEqual => x ≤ y
    | .greater => y < x
    | .greaterEqual => y ≤ x

def toInteger (U : Universe) (v : Value) : Int64 :=
  match v.datum with
  | .float x => x.toInt64
  | _ => v.asInt U

/-- Converts a number to the primitive with that number; 32-bit integers for all that are neither
floats nor 64-bit integers. -/
def convert (U : Universe) (primitive : Nat) (v : Value) : Value :=
  match Primitive.ofNumber? primitive, v.datum with
  | some .float64, .float x => .ofFloat x
  | some .float64, _ => .ofFloat (Binary64.ofInt64 (v.asInt U))
  | some .int64, _ => .ofInt64 (toInteger U v)
  | _, _ => .ofInt32 (toInteger U v)

end TreeMachine.Machine
