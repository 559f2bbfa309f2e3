import TreeMachine.Walk.Convert

/-!
# Operators on values
-/

namespace TreeMachine.Walk

def integer (U : Universe) (t : Option Ty) (n : Int64) : Exec Value :=
  match t with
  | some u => return .integral U u n
  | none => Exec.corrupt

/-- Arithmetic on floats; every operator that is no other one is the remainder. -/
def floatOperator (op : BinaryOp) (x y : Binary64) : Binary64 :=
  match op with
  | .add => x.add y
  | .sub => x.sub y
  | .mul => x.mul y
  | .div => x.div y
  | _ => x.mod y

def intOperator (U : Universe) (t : Option Ty) (op : BinaryOp) (x y : Int64) : Exec Value :=
  match op with
  | .add => integer U t (x + y)
  | .sub => integer U t (x - y)
  | .mul => integer U t (x * y)
  | _ =>
    if y = 0 then Exec.fail .divideByZero
    else if op = .div then integer U t (x / y)
    else integer U t (x % y)

def arithmetic (U : Universe) (op : BinaryOp) (a b : Value) : Exec Value :=
  match a.datum, b.datum with
  | .float x, _ => return .ofFloat (floatOperator op x b.asFloat)
  | .int _, .int _ => intOperator U a.type op (a.asInt U) (b.asInt U)
  | d, e => illTyped (.operands op d e)

/-- Orders two values of one type; every operator that is no other one asks for "at least". -/
def ordered (U : Universe) (op : BinaryOp) (a b : Value) : Bool :=
  match a.datum with
  | .float x =>
    let y := b.asFloat
    match op with
    | .less => x.less y
    | .lessEqual => x.lessEqual y
    | .greater => y.less x
    | _ => y.lessEqual x
  | _ =>
    let x := a.asInt U
    let y := b.asInt U
    match op with
    | .less => x < y
    | .lessEqual => x ≤ y
    | .greater => y < x
    | _ => y ≤ x

/-- Values of these static types are compared by content, all others by identity. -/
def comparesContent (U : Universe) (l r : Option Ty) : Bool :=
  l.any U.isValue || r.any U.isValue || (l = some .string && r = some .string)

def operator (U : Universe) (op : BinaryOp) (l r : Option Ty) (a b : Value) : Exec Value := do
  if op = .add && l = some .string then return .ofString (a.str ++ b.str)
  else if op.isArithmetic then arithmetic U op a b
  else if op.isOrdering then return .ofBool (ordered U op a b)
  else
    let same ← if comparesContent U l r then Exec.equal a b else pure (a.sameRef b)
    return .ofBool (same == (op == .equal))

def unaryOperator (U : Universe) (op : UnaryOp) (v : Value) : Exec Value :=
  match op, v.datum with
  | .not, _ => return .ofBool !v.asBool
  | .negate, .float x => return .ofFloat x.negate
  | .negate, _ => integer U v.type (-(v.asInt U))

end TreeMachine.Walk
