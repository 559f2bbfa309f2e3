import TreeMachine.Store

/-!
# How an execution fails

An execution ends in an error, which says where it arose and why, or in a panic, which unwinds to
the host. Causes are data; `Error.message` words them. An execution that copies or compares a struct
that lies inside itself does not end at all.
-/

namespace TreeMachine

/-- The classes of cause that a host can tell apart. -/
inductive Sentinel where
  | argument
  | invalidCast
  | nullReference
  | divideByZero
  | indexOutOfRange
  | arity
  | callDepth
  | stackMismatch
  | illTyped
  | unbound
  | shape
deriving DecidableEq, Repr, Inhabited

namespace Sentinel

def all : List Sentinel :=
  [argument, invalidCast, nullReference, divideByZero, indexOutOfRange, arity, callDepth,
    stackMismatch, illTyped, unbound, shape]

def name : Sentinel → String
  | argument => "argument"
  | invalidCast => "invalid_cast"
  | nullReference => "null_reference"
  | divideByZero => "divide_by_zero"
  | indexOutOfRange => "index_out_of_range"
  | arity => "arity"
  | callDepth => "call_depth"
  | stackMismatch => "stack_mismatch"
  | illTyped => "ill_typed"
  | unbound => "unbound"
  | shape => "shape"

def ofName? (s : String) : Option Sentinel := all.find? (·.name = s)

def text : Sentinel → String
  | argument => "invalid argument"
  | invalidCast => "invalid cast"
  | nullReference => "null reference"
  | divideByZero => "division by zero"
  | indexOutOfRange => "index out of range"
  | arity => "wrong number of arguments"
  | callDepth => "call depth exceeded"
  | stackMismatch => "stack depth differs from compiled depth"
  | illTyped => "ill-typed tree"
  | unbound => "unbound variable"
  | shape => "shape mismatch"

end Sentinel

inductive IllTyped where
  | argumentCount (args params : Nat)
  | voidConversion (source target : Option Ty)
  | noConversion (source target : Ty)
  | noBoxing (source target : Ty)
  | noUnboxing (source target : Ty)
  | implicitEnum (source target : Ty)
  | implicitNarrowing (source target : Ty)
  | construct (type : Ty)
  | constructOf (storage : Storage) (type : Ty)
  | readOnly (property : String)
  | scalarMember (type : Ty)
  | notAssignable (kind : Kind)
  | operands (op : BinaryOp) (left right : Datum)
deriving DecidableEq, Repr

def IllTyped.text (U : Universe) : IllTyped → String
  | argumentCount n m => s!"{n} arguments for {m} parameters"
  | voidConversion a b => s!"no conversion between {U.nameOf a} and {U.nameOf b}"
  | noConversion a b => s!"no conversion from {U.name a} to {U.name b}"
  | noBoxing a b => s!"{U.name a} does not box to {U.name b}"
  | noUnboxing a b => s!"cannot unbox {U.name a} to {U.name b}"
  | implicitEnum a b => s!"{U.name a} to {U.name b} requires an explicit conversion"
  | implicitNarrowing a b => s!"narrowing {U.name a} to {U.name b} requires an explicit conversion"
  | construct t => s!"cannot construct {U.name t}"
  | constructOf s t => s!"cannot construct {s.name} value {U.name t}"
  | readOnly p => s!"property {p} is read-only"
  | scalarMember t => s!"assignment to a member of scalar {U.name t}"
  | notAssignable k => s!"{k.name} is not assignable"
  | operands op a b => s!"{op.symbol} on {a.tagName} and {b.tagName}"

inductive ShapeError where
  | noRoot
  | parameterCount (shape lambda : Nat)
  | parameter (name : String) (source : Option Ty) (target : Ty)
  | voidLambda (result : Ty)
  | result (source target : Ty)
deriving DecidableEq, Repr

def ShapeError.text (U : Universe) : ShapeError → String
  | noRoot => "no root lambda"
  | parameterCount n m => s!"shape takes {n} parameters, lambda takes {m}"
  | parameter p a b => s!"parameter {p}: {U.nameOf a} does not convert to {U.name b}"
  | voidLambda t => s!"void lambda for a {U.name t} result"
  | result a b => s!"result {U.name a} does not convert to {U.name b}"

inductive Cause where
  | host (s : Option Sentinel) (text : String)
  | noBody (m : Method)
  | wrongArgument (expected : Option Ty)
  | nullReceiver (m : Method)
  | nullUnboxed (target : Option Ty)
  | nullDelegate
  | nullLength
  | nullElement
  | nullIndexed
  | nullFieldAccess
  | nullFieldOwner (field : String)
  | notInstance (dynamic expected : Option Ty)
  | notBoxed (dynamic expected : Option Ty)
  | notCallable (dynamic : Option Ty)
  | notImplemented (dynamic : Option Ty) (m : Method)
  | noField (dynamic : Option Ty) (field : String)
  | fieldRange (index : Nat) (dynamic : Option Ty)
  | negativeLength (n : Int64)
  | indexRange (index : Int64) (length : Nat)
  | divideByZero
  | arity (name : String) (expected : Int) (got : Nat)
  | callDepth
  | nestedCalls (n : Nat)
  | stackMismatch (compiled : Int) (actual : Nat)
  | operands (op : Opcode) (left right : Datum)
  | invalidConstant
  | unknownOpcode (byte : UInt8)
  | truncatedCode
  | illTyped (reason : IllTyped)
  | unbound (name : String)
  | shape (reason : ShapeError)
deriving DecidableEq, Repr

namespace Cause

def sentinel? : Cause → Option Sentinel
  | host s _ => s
  | noBody _ | operands _ _ _ | invalidConstant | unknownOpcode _ | truncatedCode => none
  | wrongArgument _ => some .argument
  | nullReceiver _ | nullUnboxed _ | nullDelegate | nullLength | nullElement | nullIndexed
  | nullFieldAccess | nullFieldOwner _ => some .nullReference
  | notInstance _ _ | notBoxed _ _ | notCallable _ | notImplemented _ _ | noField _ _ =>
    some .invalidCast
  | fieldRange _ _ | negativeLength _ | indexRange _ _ => some .indexOutOfRange
  | divideByZero => some .divideByZero
  | arity _ _ _ => some .arity
  | callDepth | nestedCalls _ => some .callDepth
  | stackMismatch _ _ => some .stackMismatch
  | illTyped _ => some .illTyped
  | unbound _ => some .unbound
  | shape _ => some .shape

/-- What a cause adds to the text of its class; nothing if the class says it all. -/
def detail (U : Universe) : Cause → Option String
  | host _ text => some text
  | noBody m => some s!"method {U.describe m} has no implementation"
  | wrongArgument t => some s!"object must be of type {U.nameOf t}"
  | nullReceiver m => some s!"receiver of {U.describe m}"
  | nullUnboxed t => some s!"unbox of null to {U.nameOf t}"
  | nullDelegate => some "invoke of a null delegate"
  | nullLength => some "length of null array"
  | nullElement => some "element of null array"
  | nullIndexed => some "index of null array"
  | nullFieldAccess => some "field access on null"
  | nullFieldOwner f => some s!"field {f} of null"
  | notInstance d t => some s!"{U.nameOf d} is not a {U.nameOf t}"
  | notBoxed d t => some s!"{U.nameOf d} is not a boxed {U.nameOf t}"
  | notCallable d => some s!"{U.nameOf d} is not callable"
  | notImplemented d m => some s!"{U.nameOf d} does not implement {U.describe m}"
  | noField d f => some s!"{U.nameOf d} has no field {f}"
  | fieldRange i d => some s!"field {i} of {U.nameOf d}"
  | negativeLength n => some s!"negative array length {n.toInt}"
  | indexRange i n => some s!"index {i.toInt}, length {n}"
  | divideByZero => none
  | arity name n m => some s!"{name} takes {n} arguments, got {m}"
  | callDepth => none
  | nestedCalls n => some s!"{n} nested calls"
  | stackMismatch n m => some s!"compiled {n}, actual {m}"
  | operands op a b => some s!"{op.name} on {a.tagName} and {b.tagName}"
  | invalidConstant => some "invalid constant"
  | unknownOpcode b => some s!"unknown opcode {b.toNat}"
  | truncatedCode => some "truncated bytecode"
  | illTyped reason => some (reason.text U)
  | unbound name => some name
  | shape reason => some (reason.text U)

def message (U : Universe) (c : Cause) : String :=
  ": ".intercalate ((c.sentinel?.map Sentinel.text).toList ++ (c.detail U).toList)

end Cause

inductive Panic where
  | host (text : String)
  | stackUnderflow
  | truncatedCode
  | invalidConstant
  /-- A value is not what the code takes it for. -/
  | corrupt
deriving DecidableEq, Repr

def Panic.message : Panic → String
  | host text => text
  | stackUnderflow => "stack underflow"
  | truncatedCode => "truncated bytecode"
  | invalidConstant => "invalid constant"
  | corrupt => "corrupt value"

inductive Error where
  | plain (c : Cause)
  | recovered (p : Panic)
  | inMethod (m : Method) (e : Error)
  | atArgument (index : Nat) (e : Error)
  /-- In a function in code: `ip` is the offset of the instruction, -1 where no instruction counts. -/
  | atInstruction (function : String) (ip : Int) (byte : UInt8) (e : Error)
  | atNode (function : String) (kind : Kind) (e : Error)
deriving DecidableEq, Repr

namespace Error

def cause? : Error → Option Cause
  | plain c => some c
  | recovered _ => none
  | inMethod _ e | atArgument _ e | atInstruction _ _ _ e | atNode _ _ e => cause? e

def sentinel? (e : Error) : Option Sentinel := e.cause?.bind Cause.sentinel?

def isCorrupt : Error → Bool
  | plain _ => false
  | recovered p => p = .corrupt
  | inMethod _ e | atArgument _ e | atInstruction _ _ _ e | atNode _ _ e => isCorrupt e

def hasInstruction : Error → Bool
  | plain _ | recovered _ => false
  | atInstruction _ _ _ _ => true
  | inMethod _ e | atArgument _ e | atNode _ _ e => hasInstruction e

def hasNode : Error → Bool
  | plain _ | recovered _ => false
  | atNode _ _ _ => true
  | inMethod _ e | atArgument _ e | atInstruction _ _ _ e => hasNode e

/-- A number in at least `width` places, filled with zeros behind the sign. -/
def zeroPadded (width : Nat) (n : Int) : String :=
  let digits := toString n.natAbs
  let sign := if n < 0 then "-" else ""
  sign ++ String.ofList (List.replicate (width - sign.length - digits.length) '0') ++ digits

def message (U : Universe) : Error → String
  | plain c => c.message U
  | recovered p => p.message
  | inMethod m e => s!"{U.describe m}: " ++ message U e
  | atArgument i e => s!"argument {i}: " ++ message U e
  | atInstruction f ip b e => s!"{f}+{zeroPadded 4 ip} {Opcode.nameOfByte b}: " ++ message U e
  | atNode f k e => s!"runtime error in {f} at {k.name}: " ++ message U e

end Error

inductive Abort where
  | error (e : Error)
  | panic (p : Panic)
  /-- The execution goes on forever: nothing comes back from it. -/
  | endless
deriving DecidableEq, Repr

instance : Inhabited Abort := ⟨.panic .corrupt⟩

/-- An execution over a store. What it did to the store before it failed stays done. -/
abbrev Exec := EStateM Abort Store

namespace Exec

def fail {α : Type} (c : Cause) : Exec α := throw (.error (.plain c))

def panic {α : Type} (p : Panic) : Exec α := throw (.panic p)

def corrupt {α : Type} : Exec α := panic .corrupt

def ofExcept {α : Type} : Except Cause α → Exec α
  | .ok a => pure a
  | .error c => fail c

@[inline] def mapError {α : Type} (f : Error → Error) (x : Exec α) : Exec α := fun s =>
  match x s with
  | .ok a s => .ok a s
  | .error (.error e) s => .error (.error (f e)) s
  | .error (.panic p) s => .error (.panic p) s
  | .error .endless s => .error .endless s

/-- Goes on forever unless `b` holds. -/
def ending (b : Bool) : Exec Unit := if b then pure () else throw .endless

def getSome {α : Type} : Option α → Exec α
  | some a => pure a
  | none => corrupt

end Exec

end TreeMachine
