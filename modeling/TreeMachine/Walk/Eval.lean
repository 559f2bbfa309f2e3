import TreeMachine.Walk.Operators

/-!
# Evaluating trees

`Walk.eval` evaluates an expression in an environment. Structs are copied where they are stored,
passed, boxed or returned, and are changed in place through variables, fields and array elements; the
value of an expression may be the storage of a variable.
-/

namespace TreeMachine.Walk

structure Callee where
  lambda : Lambda
  name : String
  env : Environment

/-- An execution that counts the closures it makes, to name them. -/
abbrev Eval := StateT Nat Exec

structure Context where
  host : Host
  call : Caller
  function : String
  maxDepth : Int
  enter : Callee → List Value → Eval Value

variable (ctx : Context)

abbrev Context.types : Universe := ctx.host.types

@[inline] def located {α : Type} (function : String) (kind : Kind) (x : Exec α) : Exec α :=
  Exec.mapError (fun e => if e.hasNode then e else .atNode function kind e) x

def at_ {α : Type} (kind : Kind) (x : Exec α) : Eval α := fun n s =>
  match located ctx.function kind x s with
  | .ok a s => .ok (a, n) s
  | .error e s => .error e s

def locate {α : Type} (kind : Kind) (x : Eval α) : Eval α := fun n => located ctx.function kind (x n)

def isStorage (U : Universe) : Expr → Bool
  | .var _ | .hostVar _ _ _ | .index _ _ => true
  | .member o (.field _) =>
    match o.type with
    | some t => if U.isAggregate t then isStorage U o else U.storage t = .reference
    | none => false
  | _ => false

/-- The receiver is a struct that is no storage: the callee gets a copy. -/
def isTemporary (U : Universe) (e : Expr) : Bool := e.type.any U.isAggregate && !isStorage U e

def ownReceiver (temporary : Bool) (x : Eval Value) : Eval Value := do
  let v ← x
  if temporary then Exec.clone v else return v

/-- Evaluates to a value of type `target` that no storage holds. -/
def owning (kind : Kind) (source target : Option Ty) (x : Eval Value) : Eval Value := do
  let v ← x
  let v ← at_ ctx kind (convert ctx.types v source target false)
  Exec.clone v

/-! ### Members and calls -/

def fieldsOf (self : Value) (f : Field) : Exec (Array Value) := do
  if self.isNil then Exec.fail (.nullFieldOwner f.name)
  else
    let s ← get
    let fields := s.fields self
    if f.index < fields.size then return fields
    else Exec.fail (.noField (s.dynamicType self) f.name)

/-- The implementation of a method: receivers of a value type call that of their static type, all
others that of their dynamic type. -/
def implementation (static : Option Ty) (self : Value) (m : Method) : Exec Method := do
  let U := ctx.types
  let dynamic ← Exec.dynamicType self
  match ← Exec.getSome (U.resolveOf (if static.any U.isValue then static else dynamic) m) with
  | some impl => return impl
  | none => Exec.fail (.notImplemented dynamic m)

def invoke (static : Option Ty) (self : Value) (m : Method) (args : List Value) : Exec Value := do
  if m.isStatic then run m self
  else if self.isNil then Exec.fail (.nullReceiver m)
  else
    let impl ← implementation ctx static self m
    if ctx.types.isValue impl.owner then run impl (← Exec.unboxed self)
    else run impl self
where
  run (impl : Method) (self : Value) : Exec Value := do
    let result ← Exec.mapError (.inMethod impl) (ctx.host.invoke ctx.call impl self args)
    if m.result.isSome then Exec.clone result else return .nil

def readMember (static : Option Ty) (self : Value) : Member → Exec Value
  | .field f => do return (← fieldsOf self f).getD f.index {}
  | .property p => invoke ctx static self p.getter []

def writeMember (static : Option Ty) (self : Value) (m : Member) (v : Value) : Exec Unit :=
  match m with
  | .field f => do
    let _ ← fieldsOf self f
    modify fun s => s.setField self f.index v
  | .property p =>
    match p.setter with
    | some setter => do
      let _ ← invoke ctx static self setter [v]
    | none => illTyped (.readOnly p.name)

def allocate (t : Ty) : Exec Value :=
  let U := ctx.types
  if t = .string || t = .null then illTyped (.construct t)
  else
    match U.storage t with
    | .aggregate => Exec.step (Store.newAggregate U t)
    | .reference => Exec.step (Store.newObject U t)
    | other => illTyped (.constructOf other t)

def construct (obj : Value) (ctor : Method) (args : List Value) : Exec Unit := do
  let _ ← Exec.mapError (.inMethod ctor) (ctx.host.invoke ctx.call ctor obj args)

/-! ### Node by node -/

def cellOf (env : Environment) (v : Var) : Exec Loc :=
  match env.cell? v with
  | some loc => return loc
  | none => Exec.fail (.unbound v.name)

def declareAll (U : Universe) (env : Environment) (vars : List Var) (values : List Value) :
    Exec Environment := do
  let scope ← (vars.zip values).foldlM (fun (scope : Scope) (p, v) => do
    let loc ← Exec.newCell U (some p.type) v
    return scope.bind p loc) []
  return scope :: env

def zeros (U : Universe) (vars : List Var) : Exec (List Value) :=
  vars.mapM fun v => Exec.step (Store.zero U v.type)

def evalMember (static : Option Ty) (temporary : Bool) (m : Member) (object : Eval Value) :
    Eval Value := do
  match m with
  | .field _ =>
    let self ← object
    at_ ctx .memberAccess (readMember ctx static self m)
  | .property _ =>
    let self ← ownReceiver temporary object
    at_ ctx .memberAccess (readMember ctx static self m)

def evalCall (static : Option Ty) (temporary : Bool) (m : Method) (object : Eval Value)
    (args : Eval (List Value)) : Eval Value := do
  let self ← ownReceiver temporary object
  let values ← locate ctx .methodCall args
  at_ ctx .methodCall (invoke ctx static self m values)

def evalStatic (kind : Kind) (m : Method) (self : Value) (args : Eval (List Value)) : Eval Value := do
  let values ← locate ctx kind args
  at_ ctx kind (invoke ctx none self m values)

def evalNew (t : Ty) (ctor : Option Method) (args : Eval (List Value)) : Eval Value := do
  let obj ← at_ ctx .new (allocate ctx t)
  match ctor with
  | none => return obj
  | some c =>
    let values ← locate ctx .new args
    at_ ctx .new (construct ctx obj c values)
    return obj

def storeMember (kind : Kind) (static : Option Ty) (self : Value) (m : Member) (value : Eval Value) :
    Eval Value := do
  let v ← value
  at_ ctx kind (writeMember ctx static self m v)
  return v

/-- Makes a closure. One without a name is named after the function and counted. -/
def evalLambda (env : Environment) (l : Lambda) : Eval Value := do
  let name ←
    if l.name = "" then do
      let n := (← get) + 1
      set n
      pure (ctx.function ++ "$" ++ toString n)
    else pure l.name
  let loc ← Exec.step fun s => s.addDelegate (.evaluated l name env ctx.maxDepth)
  return ⟨some l.type, .delegate loc⟩

def evalCond (test ifTrue ifFalse : Eval Value) : Eval Value := do
  let v ← test
  if v.asBool then ifTrue else ifFalse

def evalBinary (op : BinaryOp) (l r : Option Ty) (left right : Eval Value) : Eval Value := do
  let a ← left
  if op.isLogical then
    if a.asBool == (op == .orElse) then return a else right
  else
    let b ← right
    at_ ctx .binary (operator ctx.types op l r a b)

def evalUnary (op : UnaryOp) (operand : Eval Value) : Eval Value := do
  let v ← operand
  unaryOperator ctx.types op v

def evalConvert (source target : Option Ty) (operand : Eval Value) : Eval Value := do
  let v ← operand
  at_ ctx .convert (convert ctx.types v source target true)

def assignVar (env : Environment) (v : Var) (value : Eval Value) : Eval Value := do
  let loc ← at_ ctx .assign (cellOf env v)
  let x ← value
  modifyThe Store fun s => s.store loc x
  return x

def assignHost (cell : Loc) (value : Eval Value) : Eval Value := do
  let x ← value
  modifyThe Store fun s => s.store cell x
  return x

def assignMember (static : Option Ty) (temporary : Bool) (m : Member) (object value : Eval Value) :
    Eval Value := do
  match static with
  | some t => at_ ctx .assign (if ctx.types.isScalar t then illTyped (.scalarMember t) else pure ())
  | none => pure ()
  let self ← ownReceiver temporary object
  storeMember ctx .assign static self m value

def elementOf (array index : Value) : Exec (Array Value × Nat) := do
  if array.isNil then Exec.fail .nullIndexed
  else
    let items ← Exec.getSome ((← get).items? array)
    let i := index.asInt ctx.types
    if i < 0 || Int64.ofNat items.size ≤ i then Exec.fail (.indexRange i items.size)
    else return (items, i.toInt.toNat)

def assignIndex (array index value : Eval Value) : Eval Value := do
  let a ← array
  let i ← index
  let v ← value
  let (_, n) ← at_ ctx .assign (elementOf ctx a i)
  modifyThe Store fun s => s.setItem a n v
  return v

def evalIndex (array index : Eval Value) : Eval Value := do
  let a ← array
  let i ← index
  let (items, n) ← at_ ctx .arrayIndex (elementOf ctx a i)
  return items.getD n {}

def evalLength (array : Eval Value) : Eval Value := do
  let a ← array
  at_ ctx .arrayLength do
    if a.isNil then Exec.fail .nullLength
    else
      let items ← Exec.getSome ((← get).items? a)
      return .ofInt32 (Int64.ofNat items.size)

def evalNewArray (elem : Ty) (length : Eval Value) : Eval Value := do
  let n := (← length).asInt ctx.types
  at_ ctx .newArray do
    if n < 0 then Exec.fail (.negativeLength n)
    else Exec.step (Store.newArray ctx.types elem n.toInt.toNat)

def evalArrayOf (elem : Ty) (items : Eval (Array Value)) : Eval Value := do
  let values ← items
  Exec.step (Store.newArrayOf elem values)

def evalApply (result : Option Ty) (function : Eval Value) (args : Eval (List Value)) : Eval Value := do
  let fn ← function
  let values ← locate ctx .invoke args
  let v ← locate ctx .invoke (callValue fn values)
  if result.isSome then return v else return .nil
where
  callValue (fn : Value) (values : List Value) : Eval Value := do
    if fn.isNil then Exec.fail .nullDelegate
    else
      let s ← getThe Store
      match s.delegate? fn with
      | none => Exec.fail (.notCallable (s.dynamicType fn))
      | some (.evaluated l name env _) => ctx.enter ⟨l, name, env⟩ values
      | some d => do
        let v ← ctx.call d values
        Exec.clone v

def evalBlock (env : Environment) (vars : List Var) (void : Bool) (body : Environment → Eval Value) :
    Eval Value := do
  let values ← zeros ctx.types vars
  let env ← declareAll ctx.types env vars values
  let last ← body env
  return if void then .nil else last

def evalArgs (params args : Nat) (each : Eval (Array Value)) : Eval (List Value) := do
  if params = args then
    let values ← each
    return values.toList
  else illTyped (.argumentCount args params)

def evalOne (params : List (Option Ty)) (operand : Option Ty → Eval Value) : Eval (List Value) := do
  match params with
  | [p] => return [← operand p]
  | _ => illTyped (.argumentCount 1 params.length)

def evalTwo (params : List (Option Ty)) (left right : Option Ty → Eval Value) :
    Eval (List Value) := do
  match params with
  | [p, q] =>
    let a ← left p
    let b ← right q
    return [a, b]
  | _ => illTyped (.argumentCount 2 params.length)

def evalInit (new : Eval Value) (bindings : Value → Eval Unit) : Eval Value := do
  let obj ← new
  bindings obj
  return obj

def ctorParams (c : Option Method) : List (Option Ty) := (c.map (·.params)).getD []

def delegateParams (U : Universe) (t : Option Ty) : List (Option Ty) :=
  ((t.bind U.signature?).map (·.1.map some)).getD []

mutual

def eval (env : Environment) : Expr → Eval Value
  | .constant v _ => Exec.clone v
  | .var v => at_ ctx .parameter do return (← get).load (← cellOf env v)
  | .hostVar _ cell _ => do return (← getThe Store).load cell
  | .default t => Exec.step (Store.zero ctx.types t)
  | .member o m => evalMember ctx o.type (isTemporary ctx.types o) m (eval env o)
  | .call o m args =>
    evalCall ctx o.type (isTemporary ctx.types o) m (eval env o)
      (evalArgs m.params.length args.length (evalEach env m.params args #[]))
  | .callStatic m args =>
    evalStatic ctx .methodCall m {}
      (evalArgs m.params.length args.length (evalEach env m.params args #[]))
  | .new t c args =>
    evalNew ctx t c
      (evalArgs (ctorParams c).length args.length (evalEach env (ctorParams c) args #[]))
  | .init t c args members values =>
    evalInit
      (evalNew ctx t c
        (evalArgs (ctorParams c).length args.length (evalEach env (ctorParams c) args #[])))
      fun obj => evalBindings env t obj members values
  | .convert e (some m) _ =>
    evalStatic ctx .convert m .nil
      (evalOne m.params fun p => owning ctx e.kind e.type p (eval env e))
  | .convert e none t => evalConvert ctx e.type t (eval env e)
  | .lambda id name params body result type =>
    evalLambda ctx env ⟨id, name, params, body, result, type⟩
  | .cond c a b => evalCond (eval env c) (eval env a) (eval env b)
  | .binary _ l r (some m) _ =>
    evalStatic ctx .binary m .nil
      (evalTwo m.params (fun p => owning ctx l.kind l.type p (eval env l))
        fun q => owning ctx r.kind r.type q (eval env r))
  | .binary op l r none _ => evalBinary ctx op l.type r.type (eval env l) (eval env r)
  | .unary op e => evalUnary ctx op (eval env e)
  | .assign (.var v) value =>
    assignVar ctx env v (owning ctx value.kind value.type (some v.type) (eval env value))
  | .assign (.hostVar _ cell t) value =>
    assignHost cell (owning ctx value.kind value.type (some t) (eval env value))
  | .assign (.member o m) value =>
    assignMember ctx o.type (isTemporary ctx.types o) m (eval env o)
      (owning ctx value.kind value.type m.type (eval env value))
  | .assign (.index a i) value =>
    assignIndex ctx (eval env a) (eval env i)
      (owning ctx value.kind value.type (a.type.bind Ty.elem?) (eval env value))
  | .assign target _ => at_ ctx .assign (illTyped (.notAssignable target.kind))
  | .block _ vars es => evalBlock ctx env vars (Expr.lastType es).isNone fun env => evalAll env {} es
  | .apply f args r =>
    let params := delegateParams ctx.types f.type
    evalApply ctx r (eval env f)
      (evalArgs params.length args.length (evalEach env params args #[]))
  | .newArray t n => evalNewArray ctx t (eval env n)
  | .arrayOf t items => evalArrayOf t (evalItems env t items #[])
  | .index a i => evalIndex ctx (eval env a) (eval env i)
  | .length a => evalLength ctx (eval env a)
  | .absent => Exec.corrupt

/-- Evaluates expressions from the left onto `acc`, each converted to the type at its place. -/
def evalEach (env : Environment) (params : List (Option Ty)) :
    List Expr → Array Value → Eval (Array Value)
  | [], acc => return acc
  | e :: es, acc => do
    let v ← owning ctx e.kind e.type (params.headD none) (eval env e)
    evalEach env params.tail es (acc.push v)

def evalItems (env : Environment) (elem : Ty) : List Expr → Array Value → Eval (Array Value)
  | [], acc => return acc
  | e :: es, acc => do
    let v ← owning ctx e.kind e.type (some elem) (eval env e)
    evalItems env elem es (acc.push v)

def evalAll (env : Environment) (last : Value) : List Expr → Eval Value
  | [] => return last
  | e :: es => do
    let v ← eval env e
    evalAll env v es

def evalBindings (env : Environment) (t : Ty) (obj : Value) (members : List Member) :
    List Expr → Eval Unit
  | [] => return ()
  | e :: es =>
    match members with
    | m :: ms => do
      let _ ← storeMember ctx .memberInit (some t) obj m
        (owning ctx e.kind e.type m.type (eval env e))
      evalBindings env t obj ms es
    | [] => return ()

end

end TreeMachine.Walk
