import TreeMachine.Types.Conversion
import TreeMachine.Types.Draft
import TreeMachine.Value.Copy

/-!
# Building trees

Constructors that check their parts. A tree they build is well typed: operands and arguments
convert implicitly to what is expected of them, members belong to the static type they are read
from, and the static type of every node is known. A part may be missing; a constructor finds out when
it comes to look at the part.
-/

namespace TreeMachine

inductive BuildReason where
  | nullOfValueType (t : Option Ty)
  | notOfType (source target : Option Ty)
  | untypedVariable (name : String)
  | memberOfVoid (name : String)
  | callOnVoid (name : String)
  | noMember (t : Ty) (name : String)
  | noMethod (t : Ty) (name : String) (arity : Nat)
  | receiverMismatch (m : Method)
  | constructorCalled (m : Method)
  | foreignMethod (t : Ty) (m : Method)
  | cannotConstruct (t : Option Ty)
  | readOnly (property : String)
  | cannotBind (t : Option Ty) (member : String)
  | noConversion (source target : Option Ty)
  | notConversion (m : Method) (target : Option Ty)
  | missingBody
  | bodyType (source target : Option Ty)
  | listedTwice (parameter : String)
  | noCell (name : String)
  | testType (t : Option Ty)
  | branchTypes (a b : Option Ty)
  | voidOperand (op : BinaryOp)
  | operands (op : BinaryOp) (left right : Ty)
  | notOperator (m : Method)
  | operand (op : UnaryOp) (t : Option Ty)
  | notAssignable (kind : Kind)
  | cannotAssign (source target : Option Ty)
  | emptyBlock
  | notDelegate (t : Option Ty)
  | voidDefault
  | lengthType (t : Option Ty)
  | voidElement
  | itemType (t : Option Ty) (elem : Ty)
  | notArray (t : Option Ty)
  | indexType (t : Option Ty)
  | argumentCount (args params : Nat)
  | argument (index : Nat) (source target : Option Ty)
deriving DecidableEq, Repr

def BuildReason.text (U : Universe) : BuildReason → String
  | nullOfValueType t => s!"null constant of value type {U.nameOf t}"
  | notOfType a b => s!"value of type {U.nameOf a} is not a {U.nameOf b}"
  | untypedVariable name => s!"variable {name} has no type"
  | memberOfVoid name => s!"member {name} of a void expression"
  | callOnVoid name => s!"call of {name} on a void expression"
  | noMember t name => s!"{U.name t} has no member {name}"
  | noMethod t name n => s!"{U.name t} has no method {name}/{n}"
  | receiverMismatch m => s!"receiver mismatch for {U.describe m}"
  | constructorCalled m => s!"constructor {U.describe m} called as a method"
  | foreignMethod t m => s!"{U.name t} has no method {U.describe m}"
  | cannotConstruct t => s!"cannot construct {U.nameOf t}"
  | readOnly p => s!"property {p} is read-only"
  | cannotBind t member => s!"cannot bind {U.nameOf t} to {member}"
  | noConversion a b => s!"no conversion from {U.nameOf a} to {U.nameOf b}"
  | notConversion m t => s!"{U.describe m} is not a conversion to {U.nameOf t}"
  | missingBody => "missing body"
  | bodyType a b => s!"body of type {U.nameOf a} does not convert to {U.nameOf b}"
  | listedTwice p => s!"parameter {p} listed twice"
  | noCell name => s!"capture {name} has no cell"
  | testType t => s!"test of type {U.nameOf t}"
  | branchTypes a b => s!"branches of type {U.nameOf a} and {U.nameOf b}"
  | voidOperand op => s!"void operand of {op.symbol}"
  | operands op a b => s!"{op.symbol} on {U.name a} and {U.name b}"
  | notOperator m => s!"{U.describe m} is not a binary operator"
  | operand op t => s!"{op.symbol} on {U.nameOf t}"
  | notAssignable k => s!"{k.name} is not assignable"
  | cannotAssign a b => s!"cannot assign {U.nameOf a} to {U.nameOf b}"
  | emptyBlock => "empty block"
  | notDelegate t => s!"{U.nameOf t} is not a delegate"
  | voidDefault => "default of void"
  | lengthType t => s!"length of type {U.nameOf t}"
  | voidElement => "void element type"
  | itemType t elem => s!"item of type {U.nameOf t} in {U.name elem}[]"
  | notArray t => s!"{U.nameOf t} is not an array"
  | indexType t => s!"index of type {U.nameOf t}"
  | argumentCount n m => s!"{n} arguments for {m} parameters"
  | argument i a b => s!"argument {i}: {U.nameOf a} does not convert to {U.nameOf b}"

inductive BuildError where
  | invalid (kind : Kind) (reason : BuildReason)
  | absent
deriving DecidableEq, Repr

def BuildError.message (U : Universe) : BuildError → String
  | invalid kind reason => s!"ast: invalid {kind.name}: {reason.text U}"
  | absent => "missing part"

structure Bench where
  types : Universe := {}
  store : Store := {}
  next : Nat := 0
deriving Inhabited

abbrev Build := EStateM BuildError Bench

namespace Build

def invalid {α : Type} (kind : Kind) (reason : BuildReason) : Build α := throw (.invalid kind reason)

def need {α : Type} : Option α → Build α
  | some a => pure a
  | none => throw .absent

def part (e : Option Expr) : Build Expr := do
  let e ← need e
  if e.isTyped then return e else throw .absent

def fresh : Build Nat := modifyGet fun b => (b.next, { b with next := b.next + 1 })

def types : Build Universe := do return (← get).types

def onStore {α : Type} (f : Store → α × Store) : Build α :=
  modifyGet fun b => let (a, s) := f b.store; (a, { b with store := s })

def delegate (params : List Ty) (result : Option Ty) : Build Ty :=
  modifyGet fun b => let (t, U) := b.types.delegate params result; (t, { b with types := U })

def typeOf (e : Option Expr) : Build (Option Ty) :=
  match e with
  | some e => do return (← part e).type
  | none => return none

def checkArg (U : Universe) (kind : Kind) (i : Nat) (param : Option Ty) (arg : Option Expr) : Build Expr :=
  match arg with
  | some e => do
    let e ← part e
    if U.convertsImplicitlyOf e.type param then return e
    else invalid kind (.argument i e.type param)
  | none => invalid kind (.argument i none param)

def checkArgsFrom (U : Universe) (kind : Kind) (i : Nat) :
    List (Option Ty) → List (Option Expr) → Build (List Expr)
  | p :: ps, a :: as => do
    let e ← checkArg U kind i p a
    return e :: (← checkArgsFrom U kind (i + 1) ps as)
  | _, _ => return []

def checkArgs (kind : Kind) (params : List (Option Ty)) (args : List (Option Expr)) :
    Build (List Expr) := do
  if params.length ≠ args.length then invalid kind (.argumentCount args.length params.length)
  else checkArgsFrom (← types) kind 0 params args

/-! ### Constants and variables -/

def const (v : Value) : Build Expr := do
  return .constant (← onStore (Store.clone v)) v.type

def typedConst (v : Value) (t : Option Ty) : Build Expr := do
  let U ← types
  if v.isNil then
    match t with
    | some u =>
      if U.isValue u then invalid .constant (.nullOfValueType t)
      else return .constant (.nilOf t) t
    | none => invalid .constant (.nullOfValueType none)
  else if v.type = t || U.assignableOf v.type t then
    return .constant (← onStore (Store.clone v)) t
  else invalid .constant (.notOfType v.type t)

def param (name : String) (t : Option Ty) : Build Var :=
  match t with
  | some u => do return { id := ← fresh, name := name, type := u }
  | none => invalid .parameter (.untypedVariable name)

def hostVar (name : String) (cell : Option Loc) : Build Expr := do
  let s := (← get).store
  match cell, (cell.bind (s.cells[·]?)).bind (·.type) with
  | some loc, some t => return .hostVar name loc t
  | _, _ => invalid .closureCapture (.noCell name)

/-! ### Members and calls -/

def member (object : Option Expr) (name : String) : Build Expr := do
  match object, ← typeOf object with
  | some e, some t =>
    match (← types).member? t name with
    | some m => return .member e m
    | none => invalid .memberAccess (.noMember t name)
  | _, _ => invalid .memberAccess (.memberOfVoid name)

def hasMethodsOf (U : Universe) (t owner : Ty) : Bool :=
  t = owner || U.assignable t owner || U.isSubclass t owner || U.boxesTo t owner

/-- Calls a method that is already known. Static methods have no receiver. -/
def callMethod (object : Option Expr) (m : Option Method) (args : List (Option Expr)) :
    Build Expr := do
  let m ← need m
  if m.isStatic != object.isNone then invalid .methodCall (.receiverMismatch m)
  else if m.isConstructor then invalid .methodCall (.constructorCalled m)
  else
    match object with
    | none => return .callStatic m (← checkArgs .methodCall m.params args)
    | some e =>
      let e ← part e
      let t ← need e.type
      if hasMethodsOf (← types) t m.owner then
        return .call e m (← checkArgs .methodCall m.params args)
      else invalid .methodCall (.foreignMethod t m)

def call (object : Option Expr) (name : String) (args : List (Option Expr)) : Build Expr := do
  match ← typeOf object with
  | none => invalid .methodCall (.callOnVoid name)
  | some t =>
    match (← types).method? t name args.length with
    | some m =>
      if m.isStatic then invalid .methodCall (.noMethod t name args.length)
      else callMethod object m args
    | none => invalid .methodCall (.noMethod t name args.length)

def cannotConstruct (U : Universe) (t : Ty) : Bool :=
  U.isInterface t || U.isScalar t || t.elem?.isSome || U.isDelegate t

/-- Constructs a `t` with the constructor for the number of arguments; without arguments, also where
there is no such constructor. -/
def new (t : Option Ty) (args : List (Option Expr)) : Build Expr := do
  match t with
  | none => invalid .new (.cannotConstruct none)
  | some u =>
    let U ← types
    if cannotConstruct U u then invalid .new (.cannotConstruct t)
    else
      match U.constructor? u args.length with
      | some c => return .new u (some c) (← checkArgs .new c.params args)
      | none =>
        if args.isEmpty then return .new u none []
        else invalid .new (.noMethod u ".ctor" args.length)

def bindMember (t : Ty) (name : String) : Build Member := do
  match (← types).member? t name with
  | some m => return m
  | none => invalid .memberInit (.noMember t name)

def checkBinding (U : Universe) (m : Member) (value : Option Expr) : Build Expr :=
  let writable :=
    match m with
    | .field _ => true
    | .property p => p.setter.isSome
  if !writable then invalid .memberInit (.readOnly m.name)
  else
    match value with
    | some e => do
      let e ← part e
      if U.convertsImplicitlyOf e.type m.type then return e
      else invalid .memberInit (.cannotBind e.type m.name)
    | none => invalid .memberInit (.cannotBind none m.name)

def init (new : Option Expr) (bindings : List (Member × Option Expr)) : Build Expr := do
  match new with
  | some (.new t c args) =>
    let U ← types
    let values ← bindings.mapM fun (m, e) => checkBinding U m e
    return .init t c args (bindings.map (·.1)) values
  | _ => throw .absent

/-! ### Conversions -/

def convert (operand : Option Expr) (t : Option Ty) : Build Expr := do
  let operand ← part operand
  if (← types).convertsExplicitlyOf operand.type t then return .convert operand none t
  else invalid .convert (.noConversion operand.type t)

def convertWith (operand : Option Expr) (t : Option Ty) (m : Option Method) : Build Expr := do
  let m ← need m
  if !m.isStatic || m.params.length ≠ 1 || m.result ≠ t then
    invalid .convert (.notConversion m t)
  else
    match ← checkArgs .convert m.params [operand] with
    | [e] => return .convert e (some m) t
    | _ => throw .absent

/-! ### Functions -/

def repeated? : List Var → List Var → Option Var
  | _, [] => none
  | seen, p :: ps => if seen.any (·.id = p.id) then some p else repeated? (p :: seen) ps

/-- A function with a given result type; a void result discards the value of the body. -/
def lambdaOf (result : Option Ty) (body : Option Expr) (params : List Var) : Build Lambda := do
  match body with
  | none => invalid .lambda .missingBody
  | some e =>
    if result.isSome then checkBody e
    match repeated? [] params with
    | some p => invalid .lambda (.listedTwice p.name)
    | none =>
      let t ← delegate (params.map (·.type)) result
      return { id := ← fresh, name := "", params := params, body := e, result := result, type := t }
where
  checkBody (e : Expr) : Build Unit := do
    let e ← part e
    if !(← types).convertsImplicitlyOf e.type result then
      invalid .lambda (.bodyType e.type result)

def lambda (body : Option Expr) (params : List Var) : Build Lambda := do
  lambdaOf (← part body).type body params

def named (l : Lambda) (name : String) : Build Lambda := do
  return { l with id := ← fresh, name := name }

/-! ### Operators -/

def cond (test ifTrue ifFalse : Option Expr) : Build Expr := do
  let test ← part test
  if test.type ≠ some .bool then invalid .conditional (.testType test.type)
  else
    let ifTrue ← part ifTrue
    let ifFalse ← part ifFalse
    if ifTrue.type ≠ ifFalse.type then
      invalid .conditional (.branchTypes ifTrue.type ifFalse.type)
    else return .cond test ifTrue ifFalse

def operatorType? (U : Universe) (op : BinaryOp) (l r : Ty) : Option Ty :=
  if op.isLogical then if l = .bool && r = .bool then some .bool else none
  else if op = .add && l = .string && r = .string then some .string
  else if op.isArithmetic then if l = r && U.isNumeric l then some l else none
  else if op.isOrdering then if l = r && (U.isNumeric l || U.isEnum l) then some .bool else none
  else if l = r || U.assignable l r || U.assignable r l then some .bool
  else none

def binary (op : BinaryOp) (left right : Option Expr) : Build Expr := do
  let left ← part left
  let right ← part right
  match left.type, right.type with
  | some l, some r =>
    match operatorType? (← types) op l r with
    | some t => return .binary op left right none t
    | none => invalid .binary (.operands op l r)
  | _, _ => invalid .binary (.voidOperand op)

def binaryWith (op : BinaryOp) (left right : Option Expr) (m : Option Method) : Build Expr := do
  let m ← need m
  match m.isStatic && m.params.length = 2, m.result with
  | true, some t =>
    match ← checkArgs .binary m.params [left, right] with
    | [l, r] => return .binary op l r (some m) t
    | _ => throw .absent
  | _, _ => invalid .binary (.notOperator m)

def unary (op : UnaryOp) (operand : Option Expr) : Build Expr := do
  let operand ← part operand
  let U ← types
  let fits : Bool :=
    match op, operand.type with
    | .not, t => t = some .bool
    | .negate, some t => U.isNumeric t
    | .negate, none => false
  if fits then return .unary op operand
  else invalid .unary (.operand op operand.type)

/-! ### Statements -/

def assign (target value : Option Expr) : Build Expr := do
  let target ← need target
  match target with
  | .var _ | .index _ _ | .hostVar _ _ _ | .member _ (.field _) => pure ()
  | .member _ (.property p) =>
    if p.setter.isNone then invalid .assign (.readOnly p.name)
  | _ => invalid .assign (.notAssignable target.kind)
  let value ← part value
  if (← types).convertsImplicitlyOf value.type target.type then return .assign target value
  else invalid .assign (.cannotAssign value.type target.type)

/-- Evaluates expressions in order. They are not looked at, so some may be left out. -/
def block (vars : List Var) (exprs : List (Option Expr)) : Build Expr := do
  if exprs.isEmpty then invalid .block .emptyBlock
  else return .block (← fresh) vars (exprs.map (·.getD .absent))

def apply (function : Option Expr) (args : List (Option Expr)) : Build Expr := do
  let function ← part function
  match function.type.bind (← types).signature? with
  | some (params, result) =>
    return .apply function (← checkArgs .invoke (params.map some) args) result
  | none => invalid .invoke (.notDelegate function.type)

def default (t : Option Ty) : Build Expr :=
  match t with
  | some u => return .default u
  | none => invalid .default .voidDefault

/-! ### Arrays -/

def newArray (elem : Option Ty) (length : Option Expr) : Build Expr := do
  let length ← part length
  match elem with
  | some t =>
    if length.type = some .int32 then return .newArray t length
    else invalid .newArray (.lengthType length.type)
  | none => invalid .newArray (.lengthType length.type)

def checkItem (U : Universe) (t : Ty) (item : Option Expr) : Build Expr := do
  let e ← part item
  if U.convertsImplicitlyOf e.type t then return e else invalid .newArray (.itemType e.type t)

def arrayOf (elem : Option Ty) (items : List (Option Expr)) : Build Expr := do
  match elem with
  | none => invalid .newArray .voidElement
  | some t =>
    let U ← types
    return .arrayOf t (← items.mapM (checkItem U t))

def isArray (e : Expr) : Bool := (e.type.bind Ty.elem?).isSome

def index (array index : Option Expr) : Build Expr := do
  let array ← part array
  if !isArray array then invalid .arrayIndex (.notArray array.type)
  else
    let index ← part index
    if index.type ≠ some .int32 then invalid .arrayIndex (.indexType index.type)
    else return .index array index

def length (array : Option Expr) : Build Expr := do
  let array ← part array
  if isArray array then return .length array
  else invalid .arrayLength (.notArray array.type)

end Build

end TreeMachine
