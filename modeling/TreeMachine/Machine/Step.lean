import TreeMachine.Machine.Frame
import TreeMachine.Machine.Number

/-!
# Single instructions

`Machine.execute` carries out one instruction on a frame. Calls of closures in code go through
`enter`, calls of other delegates and of host routines through the host.
-/

namespace TreeMachine.Machine

structure Context where
  host : Host
  call : Caller
  enter : Closure → List Value → Exec Value

variable (ctx : Context)

def mapTop (f : Frame) (g : Value → Exec Value) : Exec Frame := do
  let (v, f) ← f.pop
  return f.push (← g v)

def mapTop2 (f : Frame) (g : Value → Value → Exec Value) : Exec Frame := do
  let (b, f) ← f.pop
  let (a, f) ← f.pop
  return f.push (← g a b)

def loadThrough (v : Value) : Exec Value := do
  return (← get).load (← Exec.getSome v.cell?)

def storeThrough (cell v : Value) : Exec Unit := do
  let loc ← Exec.getSome cell.cell?
  modify fun s => s.store loc v

def fieldsOf (obj : Value) (index : Nat) : Exec (Array Value) := do
  if obj.isNil then Exec.fail .nullFieldAccess
  else
    let s ← get
    let fields := s.fields obj
    if index < fields.size then return fields
    else Exec.fail (.fieldRange index (s.dynamicType obj))

def elementOf (array index : Value) : Exec (Array Value × Nat) := do
  if array.isNil then Exec.fail .nullElement
  else
    let items ← Exec.getSome ((← get).items? array)
    let i := index.asInt ctx.host.types
    if i < 0 || Int64.ofNat items.size ≤ i then Exec.fail (.indexRange i items.size)
    else return (items, i.toInt.toNat)

/-- Takes the receiver and the arguments of `m` and runs `impl`, which implements it for the
receiver. The result is copied. -/
def callMethod (f : Frame) (m impl : Method) : Exec Frame := do
  let (args, f) ← f.popN m.params.length
  let (self, f) ← receiver f
  let result ← Exec.mapError (.inMethod impl) (ctx.host.invoke ctx.call impl self args)
  if m.result.isSome then return f.push (← Exec.clone result)
  else return f
where
  receiver (f : Frame) : Exec (Value × Frame) := do
    if m.isStatic then return ({}, f)
    else
      let (self, f) ← f.pop
      if self.isNil then Exec.fail (.nullReceiver m)
      else if ctx.host.types.isValue impl.owner then return (← Exec.unboxed self, f)
      else return (self, f)

def callDynamic (f : Frame) (m : Method) : Exec Frame := do
  let self ← f.peek m.params.length
  if self.isNil then Exec.fail (.nullReceiver m)
  else
    let dynamic ← Exec.dynamicType self
    match ← Exec.getSome (ctx.host.types.resolveOf dynamic m) with
    | some impl => callMethod ctx f m impl
    | none => Exec.fail (.notImplemented dynamic m)

def invoke (f : Frame) (args results : Nat) : Exec Frame := do
  let (values, f) ← f.popN args
  let (fn, f) ← f.pop
  if fn.isNil then Exec.fail .nullDelegate
  else
    let s ← get
    let result ←
      match s.delegate? fn with
      | none => Exec.fail (.notCallable (s.dynamicType fn))
      | some (.compiled c) => ctx.enter c values
      | some d => do Exec.clone (← ctx.call d values)
    if 0 < results then return f.push result else return f

def capture (f : Frame) (k : Capture) : Exec Value :=
  match k.source with
  | .slot => do Exec.clone (← f.local? (← place))
  | .slotCell => do f.local? (← place)
  | .free => do Exec.clone (← f.free? (← place))
  | .freeCell => do f.free? (← place)
  | .absent => return {}
where
  place : Exec Nat := Exec.getSome k.index.toNat?

def makeClosure (f : Frame) (index : Nat) : Exec Value := do
  let fn ← Exec.getSome f.closure.image[index]?
  let free ← fn.captures.mapM (capture f)
  let loc ← Exec.step fun s =>
    s.addDelegate (.compiled { f.closure with function := fn, free := free.toArray })
  return ⟨fn.type, .delegate loc⟩

def unbox (t : Option Ty) (v : Value) : Exec Value := do
  if v.isNil then Exec.fail (.nullUnboxed t)
  else
    let s ← get
    match s.payload? v with
    | some p => if p.type = t then return p else Exec.fail (.notBoxed (s.dynamicType v) t)
    | none => Exec.fail (.notBoxed (s.dynamicType v) t)

def newArray (elem : Option Ty) (length : Value) : Exec Value := do
  let n := length.asInt ctx.host.types
  if n < 0 then Exec.fail (.negativeLength n)
  else Exec.step (Store.newArray ctx.host.types (← Exec.getSome elem) n.toInt.toNat)

def arrayLength (array : Value) : Exec Value := do
  if array.isNil then Exec.fail .nullLength
  else
    let items ← Exec.getSome ((← get).items? array)
    return .ofInt32 (Int64.ofNat items.size)

/-- Carries out an instruction on a frame that stands behind it. A return has no effect of its own
here. -/
def execute (f : Frame) (i : Instruction) : Exec Frame := do
  let U := ctx.host.types
  match i with
  | .nop | .ret | .retVoid => return f
  | .pop => return (← f.pop).2
  | .dup => return f.push (← f.peek 0)
  | .dupX1 =>
    let (b, f) ← f.pop
    let (a, f) ← f.pop
    return ((f.push b).push a).push b
  | .dupX2 =>
    let (c, f) ← f.pop
    let (b, f) ← f.pop
    let (a, f) ← f.pop
    return (((f.push c).push a).push b).push c
  | .push v => return f.push v
  | .loadLocal slot => return f.push (← f.local? slot)
  | .storeLocal slot =>
    let (v, f) ← f.pop
    f.setLocal slot v
  | .makeCell slot =>
    let v ← f.local? slot
    let loc ← Exec.newCell U v.type v
    f.setLocal slot ⟨v.type, .cell loc⟩
  | .loadCell slot => return f.push (← loadThrough (← f.local? slot))
  | .storeCell slot =>
    let cell ← f.local? slot
    let (v, f) ← f.pop
    storeThrough cell v
    return f
  | .loadFree index => return f.push (← f.free? index)
  | .loadFreeCell index => return f.push (← loadThrough (← f.free? index))
  | .storeFreeCell index =>
    let cell ← f.free? index
    let (v, f) ← f.pop
    storeThrough cell v
    return f
  | .loadHost cell => return f.push ((← get).load cell)
  | .storeHost cell =>
    let (v, f) ← f.pop
    modify fun s => s.store cell v
    return f
  | .copy => mapTop f Exec.clone
  | .newAggregate t =>
    return f.push (← Exec.step (Store.newAggregate U (← Exec.getSome t)))
  | .newObject t => return f.push (← Exec.step (Store.newObject U t))
  | .getField index =>
    let (obj, f) ← f.pop
    let fields ← fieldsOf obj index
    return f.push (fields.getD index {})
  | .setField index =>
    let (v, f) ← f.pop
    let (obj, f) ← f.pop
    let _ ← fieldsOf obj index
    modify fun s => s.setField obj index v
    return f
  | .call m => callMethod ctx f m m
  | .callDynamic m => callDynamic ctx f m
  | .invoke args results => invoke ctx f args results
  | .closure function => return f.push (← makeClosure f function)
  | .box => mapTop f fun v => Exec.step (Store.wrap v)
  | .unbox t => mapTop f (unbox t)
  | .cast t =>
    Exec.checkReference U (← f.peek 0) t
    return f
  | .retag t => mapTop f fun v => return { v with type := t }
  | .convert p => mapTop f fun v => return convert U p v
  | .arithmetic op => mapTop2 f (arithmetic U op)
  | .neg => mapTop f (negate U)
  | .concat => mapTop2 f fun a b => return .ofString (a.str ++ b.str)
  | .equal positive => mapTop2 f fun a b => return .ofBool ((← Exec.equal a b) == positive)
  | .sameRef positive => mapTop2 f fun a b => return .ofBool (a.sameRef b == positive)
  | .compare op => mapTop2 f fun a b => return .ofBool (compare U op a b)
  | .not => mapTop f fun v => return .ofBool !v.asBool
  | .newArray elem => mapTop f (newArray ctx elem)
  | .arrayOf elem count =>
    let (items, f) ← f.popN count
    return f.push (← Exec.step (Store.newArrayOf (← Exec.getSome elem) items.toArray))
  | .getElem =>
    let (index, f) ← f.pop
    let (array, f) ← f.pop
    let (items, i) ← elementOf ctx array index
    return f.push (items.getD i {})
  | .setElem =>
    let (v, f) ← f.pop
    let (index, f) ← f.pop
    let (array, f) ← f.pop
    let (_, i) ← elementOf ctx array index
    modify fun s => s.setItem array i v
    return f
  | .arrayLength => mapTop f arrayLength
  | .jump target => return { f with ip := target }
  | .jumpIfFalse target =>
    let (v, f) ← f.pop
    if v.asBool then return f else return { f with ip := target }

end TreeMachine.Machine
