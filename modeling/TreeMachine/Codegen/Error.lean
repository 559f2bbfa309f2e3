import TreeMachine.Code.Effect
import TreeMachine.Codegen.Captures
import TreeMachine.Codegen.Plan

/-!
# Why a tree is not compiled

The compiler declines trees that it has no code for or that exceed what the encoding of
instructions can hold. A fault means that its own bookkeeping broke.
-/

namespace TreeMachine

inductive Limit where
  | locals
  | captures
  | constants
  | jump
  | operand (op : Opcode) (value : Nat)
deriving DecidableEq, Repr

def Limit.message : Limit → String
  | locals => "too many locals"
  | captures => "too many captured variables"
  | constants => "too many constants"
  | jump => "jump too far"
  | operand op v => s!"{op.name} operand {v} out of range"

inductive CodegenFault where
  | stack (f : StackFault)
  | closedScope (name : String) (scope : Int)
  | notInnermost (scope innermost : Int)
  | operandCount (op : Opcode) (expected got : Nat)
  | effect (e : EffectError)
  | resultCount (op : Opcode) (pushed described : Nat)
  | leftOver (n : Nat)
  | rootCaptures (name : String)
  | captureDisagrees (name : String)
  | writeToCopy (name : String)
  | missing
deriving DecidableEq, Repr

namespace CodegenFault

def area : CodegenFault → String
  | stack _ => "stack underflow"
  | closedScope _ _ | notInnermost _ _ => "scope violation"
  | operandCount _ _ _ | effect _ | resultCount _ _ _ | leftOver _ => "stack effect mismatch"
  | rootCaptures _ | captureDisagrees _ | writeToCopy _ => "bad variable binding"
  | missing => "missing part"

def detail : CodegenFault → String
  | stack .pop => "pop from an empty stack"
  | stack (.peek n depth) => s!"peek {n} below a stack of depth {depth}"
  | closedScope name scope => s!"allocation of {name} in closed scope {scope}"
  | notInnermost scope innermost => s!"release of scope {scope}, innermost is {innermost}"
  | operandCount op n m => s!"{op.name} takes {n} operands, got {m}"
  | effect e => e.message
  | resultCount op n m => s!"{op.name} pushes {n} values, {m} described"
  | leftOver n => s!"{n} values left on the stack at return"
  | rootCaptures name => s!"root lambda captures {name}"
  | captureDisagrees name => s!"capture of {name} disagrees with its binding"
  | writeToCopy name => s!"write to by-value capture {name}"
  | missing => "no type or node"

def message (f : CodegenFault) : String := f.area ++ ": " ++ f.detail

end CodegenFault

/-- What a failure of the slots means: too many of them is a limit, all else is a fault. -/
def SlotError.meaning : SlotError → CodegenFault ⊕ Limit
  | .closedScope name scope => .inl (.closedScope name scope)
  | .notInnermost scope innermost => .inl (.notInnermost scope innermost)
  | .tooMany => .inr .locals

inductive Declined where
  | noRoot
  | shapeCount (shape lambda : Nat)
  | manyParameters
  | scope (p : ScopeProblem)
  | parameter (name : String) (e : PlanError)
  | voidLambda (result : Ty)
  | result (e : PlanError)
  | notInScope (name : String)
  | notCapturable (name : String)
  | fieldOf (field : String) (storage : Storage)
  | manyArguments
  | argumentCount (args params : Nat)
  | argument (index : Nat) (e : PlanError)
  | noImplementation (t : Ty) (m : Method)
  | construct (t : Ty)
  | constructOf (storage : Storage) (t : Ty)
  | constructorBody (m : Method)
  | member (name : String) (e : PlanError)
  | readOnly (property : String)
  | noSetter (t : Ty) (property : String)
  | conversionMethod (m : Method)
  | conversion (e : PlanError)
  | operatorMethod (m : Method)
  | structEquality (op : BinaryOp) (t : Option Ty)
  | temporaryMember
  | scalarMember (t : Ty)
  | notAssignable (kind : Kind)
  | item (index : Nat) (e : PlanError)
  | limit (l : Limit)
deriving DecidableEq, Repr

def Declined.message (U : Universe) : Declined → String
  | noRoot => "no root lambda"
  | shapeCount n m => s!"shape takes {n} parameters, lambda takes {m}"
  | manyParameters => "too many parameters"
  | scope p => p.message
  | parameter name e => s!"parameter {name}: {e.message U}"
  | voidLambda t => s!"void lambda for a {U.name t} result"
  | result e => s!"result: {e.message U}"
  | notInScope name => s!"variable {name} is not in scope"
  | notCapturable name => s!"variable {name} is not in scope where the closure is created"
  | fieldOf f s => s!"field {f} of a {s.name} value"
  | manyArguments => "too many arguments"
  | argumentCount n m => s!"{n} arguments for {m} parameters"
  | argument i e => s!"argument {i}: {e.message U}"
  | noImplementation t m => s!"{U.name t} has no implementation of {U.describe m}"
  | construct t => s!"cannot construct {U.name t}"
  | constructOf s t => s!"cannot construct {s.name} value {U.name t}"
  | constructorBody m => s!"constructor {U.describe m} has no implementation"
  | member name e => s!"{name}: {e.message U}"
  | readOnly p => s!"property {p} is read-only"
  | noSetter t p => s!"{U.name t} has no setter for {p}"
  | conversionMethod m => s!"user-defined conversion {U.describe m}"
  | conversion e => e.message U
  | operatorMethod m => s!"user-defined operator {U.describe m}"
  | structEquality op t => s!"{op.symbol} on value aggregate {U.nameOf t}"
  | temporaryMember => "assignment to a member of a non-addressable value"
  | scalarMember t => s!"assignment to a member of scalar {U.name t}"
  | notAssignable k => s!"{k.name} is not assignable"
  | item i e => s!"item {i}: {e.message U}"
  | limit l => l.message

inductive CompileError where
  | unsupported (kind : Kind) (reason : Declined)
  | internal (kind : Kind) (fault : CodegenFault)
deriving DecidableEq, Repr

namespace CompileError

def isUnsupported : CompileError → Bool
  | unsupported _ _ => true
  | _ => false

def kind : CompileError → Kind
  | unsupported k _ | internal k _ => k

def className : Nat → String
  | 1 => "unsupported"
  | 2 => "internal error"
  | n => s!"ErrorKind({n})"

def message (U : Universe) : CompileError → String
  | unsupported k r => s!"unsupported: {k.name}: {r.message U}"
  | internal k f => s!"internal error: {k.name}: {f.message}"

end CompileError

/-- What the caller of the compiler gets instead of an artifact. -/
inductive CompileFailure where
  | error (e : CompileError)
  /-- No error comes back: printing the tree for the log goes on forever. -/
  | endless
  /-- No error comes back: there is no tree to print for the log. -/
  | crashed
deriving DecidableEq, Repr

namespace CompileFailure

def isUnsupported : CompileFailure → Bool
  | error e => e.isUnsupported
  | endless | crashed => false

def message (U : Universe) : CompileFailure → String
  | error e => e.message U
  | endless | crashed => ""

end CompileFailure

end TreeMachine
