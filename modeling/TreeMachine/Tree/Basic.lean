import TreeMachine.Value.Basic

/-!
# Expression trees

An expression knows its static type. Variables, lambdas and blocks have an identity of their own: a
variable is told apart by its `id` and never by its name, and a lambda or block that stands at two
places of a tree is one declaration of its variables.
-/

namespace TreeMachine

inductive Kind where
  | constant
  | parameter
  | memberAccess
  | methodCall
  | new
  | memberInit
  | convert
  | lambda
  | closureCapture
  | conditional
  | binary
  | unary
  | assign
  | block
  | invoke
  | default
  | newArray
  | arrayIndex
  | arrayLength
deriving DecidableEq, Repr, Inhabited

namespace Kind

def all : List Kind :=
  [constant, parameter, memberAccess, methodCall, new, memberInit, convert, lambda, closureCapture,
    conditional, binary, unary, assign, block, invoke, default, newArray, arrayIndex, arrayLength]

def name : Kind → String
  | constant => "Constant"
  | parameter => "Parameter"
  | memberAccess => "MemberAccess"
  | methodCall => "MethodCall"
  | new => "New"
  | memberInit => "MemberInit"
  | convert => "Convert"
  | lambda => "Lambda"
  | closureCapture => "ClosureCapture"
  | conditional => "Conditional"
  | binary => "Binary"
  | unary => "Unary"
  | assign => "Assign"
  | block => "Block"
  | invoke => "Invoke"
  | default => "Default"
  | newArray => "NewArray"
  | arrayIndex => "ArrayIndex"
  | arrayLength => "ArrayLength"

def number (k : Kind) : Nat := all.idxOf k

def nameOfNumber (n : Nat) : String :=
  match all[n]? with
  | some k => k.name
  | none => s!"Kind({n})"

end Kind

inductive BinaryOp where
  | add
  | sub
  | mul
  | div
  | mod
  | equal
  | notEqual
  | less
  | lessEqual
  | greater
  | greaterEqual
  | andAlso
  | orElse
deriving DecidableEq, Repr, Inhabited

namespace BinaryOp

def all : List BinaryOp :=
  [add, sub, mul, div, mod, equal, notEqual, less, lessEqual, greater, greaterEqual, andAlso, orElse]

def symbol : BinaryOp → String
  | add => "+"
  | sub => "-"
  | mul => "*"
  | div => "/"
  | mod => "%"
  | equal => "=="
  | notEqual => "!="
  | less => "<"
  | lessEqual => "<="
  | greater => ">"
  | greaterEqual => ">="
  | andAlso => "&&"
  | orElse => "||"

def number (op : BinaryOp) : Nat := all.idxOf op

def ofNumber? (n : Nat) : Option BinaryOp := all[n]?

def ofSymbol? (s : String) : Option BinaryOp := all.find? (·.symbol = s)

def isArithmetic : BinaryOp → Bool
  | add | sub | mul | div | mod => true
  | _ => false

def isEquality : BinaryOp → Bool
  | equal | notEqual => true
  | _ => false

def isOrdering : BinaryOp → Bool
  | less | lessEqual | greater | greaterEqual => true
  | _ => false

def isLogical : BinaryOp → Bool
  | andAlso | orElse => true
  | _ => false

end BinaryOp

inductive UnaryOp where
  | negate
  | not
deriving DecidableEq, Repr, Inhabited

namespace UnaryOp

def symbol : UnaryOp → String
  | negate => "-"
  | not => "!"

def number : UnaryOp → Nat
  | negate => 0
  | not => 1

end UnaryOp

structure Var where
  id : Nat
  name : String
  type : Ty
deriving DecidableEq, Repr, Inhabited

inductive Expr where
  | constant (value : Value) (type : Option Ty)
  | var (v : Var)
  | member (object : Expr) (m : Member)
  | call (object : Expr) (method : Method) (args : List Expr)
  | callStatic (method : Method) (args : List Expr)
  /-- Constructs a `type`; without a constructor the storage keeps its zero values. -/
  | new (type : Ty) (ctor : Option Method) (args : List Expr)
  /-- Constructs like `new`, then stores each value in the member at the same position. -/
  | init (type : Ty) (ctor : Option Method) (args : List Expr) (members : List Member)
    (values : List Expr)
  | convert (operand : Expr) (method : Option Method) (type : Option Ty)
  /-- A function. An empty name lets the executors choose one. -/
  | lambda (id : Nat) (name : String) (params : List Var) (body : Expr) (result : Option Ty) (type : Ty)
  | hostVar (name : String) (cell : Loc) (type : Ty)
  | cond (test ifTrue ifFalse : Expr)
  /-- Applies `op`, or the static method a type defines for it. -/
  | binary (op : BinaryOp) (left right : Expr) (method : Option Method) (type : Ty)
  | unary (op : UnaryOp) (operand : Expr)
  | assign (target value : Expr)
  | block (id : Nat) (vars : List Var) (exprs : List Expr)
  | apply (function : Expr) (args : List Expr) (result : Option Ty)
  | default (type : Ty)
  | newArray (elem : Ty) (length : Expr)
  | arrayOf (elem : Ty) (items : List Expr)
  | index (array index : Expr)
  | length (array : Expr)
  /-- An expression of a block that is left out. It can be written down, and not be executed. -/
  | absent
deriving Inhabited

namespace Expr

def kind : Expr → Kind
  | constant .. => .constant
  | var .. => .parameter
  | member .. => .memberAccess
  | call .. | callStatic .. => .methodCall
  | new .. => .new
  | init .. => .memberInit
  | convert .. => .convert
  | lambda .. => .lambda
  | hostVar .. => .closureCapture
  | cond .. => .conditional
  | binary .. => .binary
  | unary .. => .unary
  | assign .. => .assign
  | block .. | absent => .block
  | apply .. => .invoke
  | default .. => .default
  | newArray .. | arrayOf .. => .newArray
  | index .. => .arrayIndex
  | length .. => .arrayLength

mutual

def type : Expr → Option Ty
  | constant _ t => t
  | var v => some v.type
  | member _ m => m.type
  | call _ m _ => m.result
  | callStatic m _ => m.result
  | new t _ _ => some t
  | init t _ _ _ _ => some t
  | convert _ _ t => t
  | lambda _ _ _ _ _ t => some t
  | hostVar _ _ t => some t
  | cond _ a _ => a.type
  | binary _ _ _ _ t => some t
  | unary _ e => e.type
  | assign target _ => target.type
  | block _ _ es => lastType es
  | apply _ _ r => r
  | default t => some t
  | newArray e _ => some (.array e)
  | arrayOf e _ => some (.array e)
  | index a _ => a.type.bind Ty.elem?
  | length _ => some .int32
  | absent => none

def lastType : List Expr → Option Ty
  | [] => none
  | [e] => e.type
  | _ :: e :: es => lastType (e :: es)

end

def children : Expr → List Expr
  | constant .. | var .. | hostVar .. | default .. | absent => []
  | member o _ => [o]
  | call o _ args => o :: args
  | callStatic _ args => args
  | new _ _ args => args
  | init t c args _ values => new t c args :: values
  | convert e _ _ => [e]
  | lambda _ _ _ body _ _ => [body]
  | cond c a b => [c, a, b]
  | binary _ l r _ _ => [l, r]
  | unary _ e => [e]
  | assign target value => [target, value]
  | block _ _ es => es
  | apply f args _ => f :: args
  | newArray _ n => [n]
  | arrayOf _ items => items
  | index a i => [a, i]
  | length a => [a]

mutual

/-- The static type of the expression is known, be it void: it does not depend on an expression that
is left out. -/
def isTyped : Expr → Bool
  | absent => false
  | block _ _ es => lastIsTyped es
  | _ => true

def lastIsTyped : List Expr → Bool
  | [] => true
  | [e] => e.isTyped
  | _ :: e :: es => lastIsTyped (e :: es)

end

end Expr

structure Lambda where
  id : Nat
  name : String
  params : List Var
  body : Expr
  /-- `none` discards the value of the body. -/
  result : Option Ty
  type : Ty
deriving Inhabited

namespace Lambda

def toExpr (l : Lambda) : Expr := .lambda l.id l.name l.params l.body l.result l.type

def ofExpr? : Expr → Option Lambda
  | .lambda id name params body result type => some ⟨id, name, params, body, result, type⟩
  | _ => none

@[simp] theorem ofExpr?_toExpr (l : Lambda) : ofExpr? l.toExpr = some l := rfl

def rootName (l : Lambda) : String := if l.name = "" then "main" else l.name

end Lambda

structure Shape where
  params : List (Option Ty) := []
  result : Option Ty := none
deriving DecidableEq, Repr, Inhabited

def Shape.text (U : Universe) (s : Shape) : String :=
  "(" ++ U.namesOf s.params ++ ") " ++ U.nameOf s.result

def Lambda.shape (l : Lambda) : Shape := ⟨l.params.map fun v => some v.type, l.result⟩

end TreeMachine
