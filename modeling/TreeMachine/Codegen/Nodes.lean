import TreeMachine.Codegen.Emit
import TreeMachine.Value.Copy

/-!
# Code of the nodes

The code of each kind of node, given the code of its parts. A node leaves its value on the operand
stack, and nothing if it is void.
-/

namespace TreeMachine.Codegen

variable (ctx : Context)

def checkProblem (kind : Kind) (node : Nat) : Codegen Unit :=
  match ctx.captures.problem? node with
  | some p => decline kind (.scope p)
  | none => pure ()

/-! ### Values and variables -/

/-- A constant. Struct constants stay in the pool and are aliased. -/
def constantCode (v : Value) (type : Option Ty) : Codegen Unit := do
  let t ← needType .constant type
  match v.datum with
  | .null => emit .constant .pushNil [] [owned t]
  | .bool b => emit .constant (if b then .pushTrue else .pushFalse) [] [owned t]
  | .aggregate _ => emit .constant .const [← constant .constant (.value v)] [aliased t]
  | _ => emit .constant .const [← constant .constant (.value v)] [owned t]

def variableCode (v : Var) : Codegen Unit := do
  checkProblem ctx .parameter v.id
  match (← get).function.env.lookup v.id with
  | some b => emit .parameter b.place.load [b.index] [aliased v.type]
  | none => decline .parameter (.notInScope v.name)

def useHostCell (cell : Loc) : Codegen Unit :=
  modify fun s => if s.hostCells.contains cell then s else { s with hostCells := s.hostCells.push cell }

def hostVarCode (cell : Loc) (t : Ty) : Codegen Unit := do
  useHostCell cell
  emit .closureCapture .loadHost [← constant .closureCapture (.cell cell)] [aliased t]

def defaultCode (kind : Kind) (t : Ty) : Codegen Unit := do
  match ctx.types.storage t with
  | .scalar => emit kind .const [← constant kind (.value (Store.scalarZero ctx.types t))] [owned t]
  | .aggregate => emit kind .newAggregate [← constant kind (.type t)] [owned t]
  | .reference | .interface => emit kind .pushNil [] [owned t]

/-! ### Receivers -/

/-- Expressions that denote storage, which member writes and mutating calls change in place. -/
def isPath (U : Universe) : Expr → Bool
  | .var _ | .hostVar _ _ _ | .index _ _ => true
  | .member o (.field _) =>
    match o.type with
    | some t => if U.isAggregate t then isPath U o else U.storage t = .reference
    | none => false
  | _ => false

/-- Moves the struct on top to a slot, so that `x` finds it as storage. -/
def materialize (kind : Kind) (t : Ty) (x : Codegen Unit) : Codegen Unit :=
  withTemp kind t fun slot => do
    emit kind .storeLocal [slot] []
    emit kind .loadLocal [slot] [aliased t]
    x

/-- Pushes a struct whose storage `x` may change. Storage is used in place; any other value is moved
to a slot first. -/
def withReceiver (kind : Kind) (t : Ty) (path : Bool) (receiver x : Codegen Unit) :
    Codegen Unit := do
  receiver
  if path then x
  else
    own ctx kind
    materialize kind t x

/-! ### Calls -/

/-- The call instruction for a method on receivers of static type `t`, and the method it names.
Receivers of a value type call the implementation of their own type. -/
def dispatch (U : Universe) (t : Ty) (m : Method) : Opcode × Option Method :=
  if m.isStatic then (.call, some m)
  else if U.isValue t then (.call, U.resolve t m)
  else if U.isInterface m.owner then (.callInterface, some m)
  else if m.slot.isSome then (.callVirtual, some m)
  else (.call, some m)

def callTarget? (U : Universe) (t : Ty) (m : Method) : Option (Opcode × Method) :=
  match dispatch U t m with
  | (op, some target) => if op = .call && target.body.isNone then none else some (op, target)
  | (_, none) => none

def callCode (kind : Kind) (op : Opcode) (m : Method) : Codegen Unit := do
  let i ← constant kind (.method m)
  emit kind op [i] (m.result.map owned).toList

def maxArgs : Nat := 255

def planEach (kind : Kind) (reason : Nat → PlanError → Declined) (i : Nat) :
    List (Option Ty) → List Expr → List Plan → Codegen (List Plan)
  | p :: ps, e :: es, acc => do
    let plan ← planned kind (reason i) (Plan.make ctx.types e.type p false)
    planEach kind reason (i + 1) ps es (plan :: acc)
  | _, _, acc => return acc.reverse

def planArgs (kind : Kind) (params : List (Option Ty)) (args : List Expr) : Codegen (List Plan) :=
  if maxArgs < args.length then decline kind .manyArguments
  else if args.length ≠ params.length then
    decline kind (.argumentCount args.length params.length)
  else planEach ctx kind .argument 0 params args []

/-- Converts the top as planned and makes it an owned value. -/
def deliver (kind : Kind) (p : Plan) : Codegen Unit := do
  convert ctx kind p
  own ctx kind

def callOnCode (kind : Kind) (t : Option Ty) (path : Bool) (m : Method) (args : List Expr)
    (receiver : Codegen Unit) (argsCode : List Plan → Codegen Unit) : Codegen Unit := do
  let plans ← planArgs ctx kind m.params args
  let t ← needType kind t
  match callTarget? ctx.types t m with
  | none => decline kind (.noImplementation t m)
  | some (op, target) =>
    let call : Codegen Unit := do
      argsCode plans
      callCode kind op target
    if ctx.types.isAggregate t then withReceiver ctx kind t path receiver call
    else
      receiver
      call

def callStaticCode (m : Method) (args : List Expr) (argsCode : List Plan → Codegen Unit) :
    Codegen Unit := do
  let plans ← planArgs ctx .methodCall m.params args
  argsCode plans
  callCode .methodCall .call m

def fieldCode (f : Field) (object : Codegen Unit) : Codegen Unit := do
  object
  let top ← peek .memberAccess 0
  let t ← needType .memberAccess top.type
  let load := emit .memberAccess .getField [f.index] [aliased f.type]
  match ctx.types.storage t with
  | .aggregate => if top.addressable then load else materialize .memberAccess t load
  | .reference => load
  | other => decline .memberAccess (.fieldOf f.name other)

/-! ### Construction -/

def planCtor (kind : Kind) (ctor : Option Method) (args : List Expr) : Codegen (List Plan) :=
  match ctor with
  | none => return []
  | some c =>
    if c.body.isNone then decline .new (.constructorBody c) else planArgs ctx kind c.params args

def newCode (kind : Kind) (t : Ty) (ctor : Option Method) (args : List Expr)
    (argsCode : List Plan → Codegen Unit) : Codegen Unit := do
  if t = .string || t = .null then decline .new (.construct t)
  else
    let plans ← planCtor ctx kind ctor args
    match ctx.types.storage t with
    | .aggregate =>
      emit kind .newAggregate [← constant kind (.type t)] [owned t]
      match ctor with
      | none => pure ()
      | some c =>
        withTemp kind t fun slot => do
          emit kind .storeLocal [slot] []
          emit kind .loadLocal [slot] [aliased t]
          argsCode plans
          callCode kind .call c
          emit kind .loadLocal [slot] [owned t]
    | .reference =>
      emit kind .newObject [← constant kind (.type t)] [owned t]
      match ctor with
      | none => pure ()
      | some c =>
        emit kind .dup [] [owned t, owned t]
        argsCode plans
        callCode kind .call c
    | other => decline .new (.constructOf other t)

inductive MemberStore where
  | field (index : Nat)
  | setter (op : Opcode) (m : Method)

def memberStore (kind : Kind) (t : Ty) : Member → Codegen MemberStore
  | .field f => return .field f.index
  | .property p =>
    match p.setter with
    | none => decline kind (.readOnly p.name)
    | some m =>
      match callTarget? ctx.types t m with
      | none => decline kind (.noSetter t p.name)
      | some (op, target) => return .setter op target

/-- Writes a value to a member of the receiver on top. With `keep` the value stays on the stack. -/
def storeMemberCode (kind : Kind) (t : Ty) (m : Member) (source : Option Ty) (keep : Bool)
    (value : Codegen Unit) : Codegen Unit := do
  let plan ← planned kind (.member m.name) (Plan.make ctx.types source m.type false)
  let target ← memberStore ctx kind t m
  value
  deliver ctx kind plan
  if keep then
    let v ← peek kind 0
    let r ← peek kind 1
    let v := { v with addressable := true }
    emit kind .dupX1 [] [v, r, v]
  match target with
  | .field i => emit kind .setField [i] []
  | .setter op m => callCode kind op m

/-- Constructs a value and stores to its members. `bindings` stores to each, with a step that pushes
the receiver. -/
def initCode (t : Ty) (new : Codegen Unit) (bindings : Codegen Unit → Codegen Unit) :
    Codegen Unit := do
  new
  if ctx.types.storage t = .reference then
    bindings (emit .memberInit .dup [] [owned t, owned t])
  else
    withTemp .memberInit t fun slot => do
      emit .memberInit .storeLocal [slot] []
      bindings (emit .memberInit .loadLocal [slot] [aliased t])
      emit .memberInit .loadLocal [slot] [owned t]

/-! ### Operators -/

def convertCode (source target : Option Ty) (operand : Codegen Unit) : Codegen Unit := do
  let plan ← planned .convert .conversion (Plan.make ctx.types source target true)
  operand
  convert ctx .convert plan

def join (kind : Kind) (other : StackEntry) : Codegen Unit := do
  let top ← peek kind 0
  replaceTop kind { top with addressable := top.addressable || other.addressable }

def snapshot : Codegen (Array StackEntry) := do return (← get).function.stack.entries

def restore (entries : Array StackEntry) : Codegen Unit :=
  modifyFunction fun f => { f with stack := f.stack.restore entries }

def condCode (void : Bool) (test ifTrue ifFalse : Codegen Unit) : Codegen Unit := do
  test
  let toElse ← emitJump .conditional .jumpIfFalse
  let before ← snapshot
  ifTrue
  let first ← if void then pure none else some <$> peek .conditional 0
  let toEnd ← emitJump .conditional .jump
  restore before
  patchJump .conditional toElse
  ifFalse
  patchJump .conditional toEnd
  match first with
  | some e => join .conditional e
  | none => pure ()

def logicalCode (isAnd : Bool) (left right : Codegen Unit) : Codegen Unit := do
  left
  let toShort ← emitJump .binary .jumpIfFalse
  let before ← snapshot
  if isAnd then
    right
    let toEnd ← emitJump .binary .jump
    restore before
    patchJump .binary toShort
    emit .binary .pushFalse [] [owned .bool]
    patchJump .binary toEnd
  else
    emit .binary .pushTrue [] [owned .bool]
    let toEnd ← emitJump .binary .jump
    restore before
    patchJump .binary toShort
    right
    patchJump .binary toEnd
  replaceTop .binary (owned .bool)

def operatorOpcode (U : Universe) (op : BinaryOp) (l r : Option Ty) : Opcode :=
  let byContent := l.any U.isScalar || (l = some .string && r = some .string)
  match op with
  | .add => if l = some .string then .concat else .add
  | .sub => .sub
  | .mul => .mul
  | .div => .div
  | .mod => .mod
  | .less => .less
  | .lessEqual => .lessEqual
  | .greater => .greater
  | .greaterEqual => .greaterEqual
  | .equal => if byContent then .equal else .sameRef
  | _ => if byContent then .notEqual else .differentRef

def operator? (U : Universe) (op : BinaryOp) (l r : Option Ty) : Except Declined Opcode :=
  if op.isEquality && (l.any U.isAggregate || r.any U.isAggregate) then
    .error (.structEquality op l)
  else .ok (operatorOpcode U op l r)

def strictCode (op : Except Declined Opcode) (t : Ty) (left right : Codegen Unit) : Codegen Unit :=
  match op with
  | .error reason => decline .binary reason
  | .ok op => do
    left
    right
    emit .binary op [] [owned t]

def unaryCode (op : UnaryOp) (t : Option Ty) (operand : Codegen Unit) : Codegen Unit := do
  operand
  let t ← needType .unary t
  emit .unary (match op with | .not => .not | .negate => .neg) [] [owned t]

/-! ### Assignments -/

/-- Doubles the value about to be stored, which stays as the result of the assignment. -/
def dupResult : Codegen Unit := do
  let v ← peek .assign 0
  let v := { v with addressable := true }
  emit .assign .dup [] [v, v]

def valueCode (plan : Plan) (code : Codegen Unit) : Codegen Unit := do
  code
  deliver ctx .assign plan

def planAssign (source target : Option Ty) : Codegen Plan :=
  planned .assign .conversion (Plan.make ctx.types source target false)

def assignVarCode (v : Var) (source : Option Ty) (code : Codegen Unit) : Codegen Unit := do
  let plan ← planAssign ctx source (some v.type)
  match (← get).function.env.lookup v.id with
  | none => decline .assign (.notInScope v.name)
  | some b =>
    match b.place.store? with
    | none => fault .assign (.writeToCopy v.name)
    | some op =>
      valueCode ctx plan code
      dupResult
      emit .assign op [b.index] []

def assignHostCode (cell : Loc) (t : Ty) (source : Option Ty) (code : Codegen Unit) :
    Codegen Unit := do
  let plan ← planAssign ctx source (some t)
  valueCode ctx plan code
  useHostCell cell
  dupResult
  emit .assign .storeHost [← constant .assign (.cell cell)] []

def assignMemberCode (object : Option Ty) (path : Bool) (m : Member) (source : Option Ty)
    (objectCode code : Codegen Unit) : Codegen Unit := do
  let _ ← planAssign ctx source m.type
  let t ← needType .assign object
  if ctx.types.isAggregate t && !path then decline .assign .temporaryMember
  else if ctx.types.isScalar t then decline .assign (.scalarMember t)
  else
    objectCode
    storeMemberCode ctx .assign t m source true code

def assignIndexCode (elem source : Option Ty) (array index code : Codegen Unit) : Codegen Unit := do
  let plan ← planAssign ctx source elem
  array
  index
  valueCode ctx plan code
  let v ← peek .assign 0
  let i ← peek .assign 1
  let a ← peek .assign 2
  let v := { v with addressable := true }
  emit .assign .dupX2 [] [v, a, i, v]
  emit .assign .setElem [] []

/-! ### Blocks and delegates -/

/-- Makes a variable visible whose slot holds its first value; a shared one moves to a cell. -/
def bindVariable (kind : Kind) (v : Var) (number : Option Nat) (slot : Nat) : Codegen Unit := do
  let mode := (number.map ctx.captures.mode).getD .none
  if mode = .byReference then emit kind .makeCell [slot] []
  let place := if mode = .byReference then .slotCell else .slot
  modifyFunction fun f => { f with env := (v.id, ⟨place, slot, number⟩) :: f.env }

def declareAll (block : Nat) (scope : Int) : List Var → Codegen Unit
  | [] => pure ()
  | v :: vs => do
    let number := ctx.captures.number? block v
    let mode := (number.map ctx.captures.mode).getD .none
    let slot ← allocate .block (some v.type) v.name mode scope
    defaultCode ctx .block v.type
    emit .block .storeLocal [slot] []
    bindVariable ctx .block v number slot
    declareAll block scope vs

def blockCode (id : Nat) (vars : List Var) (body : Codegen Unit) : Codegen Unit := do
  checkProblem ctx .block id
  let env := (← get).function.env
  let scope ← openScope
  declareAll ctx id scope vars
  body
  release .block scope
  modifyFunction fun f => { f with env := env }

def applyCode (signature : Option (List Ty × Option Ty)) (args : List Expr) (function : Codegen Unit)
    (argsCode : List Plan → Codegen Unit) : Codegen Unit := do
  match signature with
  | none => fault .invoke .missing
  | some (params, result) =>
    let plans ← planArgs ctx .invoke (params.map some) args
    function
    argsCode plans
    emit .invoke .invoke [args.length, if result.isSome then 1 else 0] (result.map owned).toList

/-! ### Arrays -/

def newArrayCode (elem : Ty) (length : Codegen Unit) : Codegen Unit := do
  length
  emit .newArray .newArray [← constant .newArray (.type elem)] [owned (.array elem)]

def arrayOfCode (elem : Ty) (items : List Expr) (itemsCode : List Plan → Codegen Unit) :
    Codegen Unit := do
  let plans ← planEach ctx .newArray .item 0 (items.map fun _ => some elem) items []
  itemsCode plans
  emit .newArray .arrayOf [← constant .newArray (.type elem), items.length] [owned (.array elem)]

def indexCode (elem : Option Ty) (array index : Codegen Unit) : Codegen Unit := do
  array
  index
  let t ← needType .arrayIndex elem
  emit .arrayIndex .getElem [] [aliased t]

def lengthCode (array : Codegen Unit) : Codegen Unit := do
  array
  emit .arrayLength .arrayLength [] [owned .int32]

end TreeMachine.Codegen
