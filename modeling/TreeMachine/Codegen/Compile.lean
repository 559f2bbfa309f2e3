import TreeMachine.Codegen.Nodes
import TreeMachine.Tree.Printer

/-!
# Compiling trees

`Codegen.compile` emits the code of an expression; `Codegen.function` that of a whole function: the
conversion of its parameters from the types it is called with, its body, and the return.
`Compiler.compile` makes the artifact of a tree for a call shape, `Compiler.answer` also logs a failure.
-/

namespace TreeMachine

namespace Codegen

variable (ctx : Context)

/-! ### Functions -/

def allocateParams (lambda : Nat) : List Var → List (Option Ty) → Codegen Unit
  | v :: vs, t :: ts => do
    let mode :=
      match ctx.captures.number? lambda v with
      | some i => if t = some v.type then ctx.captures.mode i else .none
      | none => .none
    let _ ← allocate .lambda t v.name mode 0
    allocateParams lambda vs ts
  | _, _ => pure ()

/-- Where the enclosing function finds variable number `i` when it makes the closure. -/
def captureFrom (enclosing : Option Bindings) (i : Nat) : Codegen Capture := do
  let x := ctx.captures.vars.getD i default
  let byRef := x.mode = .byReference
  match enclosing with
  | none => fault .lambda (.rootCaptures x.var.name)
  | some env =>
    match env.lookup x.var.id with
    | none => decline .lambda (.notCapturable x.var.name)
    | some b =>
      if b.number ≠ some i then decline .lambda (.notCapturable x.var.name)
      else if byRef != b.place.isCell then fault .lambda (.captureDisagrees x.var.name)
      else return { name := x.var.name, source := b.place.source, index := b.index, byRef := byRef }

def maxCaptures : Nat := 256

/-- Binds the captured variables from position `i` on; gives where the closure finds them. -/
def bindCaptures (enclosing : Option Bindings) (i : Nat) : List Nat → Codegen (List Capture)
  | [] => return []
  | n :: ns => do
    if maxCaptures ≤ i then decline .lambda (.limit .captures)
    else
      let x := ctx.captures.vars.getD n default
      let place := if x.mode = .byReference then .freeCell else .free
      modifyFunction fun f => { f with env := (x.var.id, ⟨place, i, some n⟩) :: f.env }
      let k ← captureFrom ctx enclosing n
      return k :: (← bindCaptures enclosing (i + 1) ns)

/-- Converts the parameters from position `i` on to their own types and binds them. -/
def prologue (lambda : Nat) (i : Nat) : List Var → List (Option Ty) → Codegen Unit
  | v :: vs, t :: ts => do
    let number := ctx.captures.number? lambda v
    if t = some v.type then bindVariable ctx .lambda v number i
    else
      let plan ← planned .lambda (.parameter v.name) (Plan.make ctx.types t (some v.type) false)
      let source ← needType .lambda t
      emit .lambda .loadLocal [i] [aliased source]
      deliver ctx .lambda plan
      let slot ← allocate .lambda (some v.type) v.name ((number.map ctx.captures.mode).getD .none) 0
      emit .lambda .storeLocal [slot] []
      bindVariable ctx .lambda v number slot
    prologue lambda (i + 1) vs ts
  | _, _ => pure ()

def coerce (t : Ty) : Codegen Unit := do
  let top ← peek .lambda 0
  let plan ← planned .lambda .result (Plan.make ctx.types top.type (some t) false)
  convert ctx .lambda plan

def returnVoid (hasValue : Bool) : Codegen Unit := do
  if hasValue then emit .lambda .pop [] []
  emit .lambda .retVoid [] []

def epilogue (body own result : Option Ty) : Codegen Unit := do
  match own, result with
  | none, some t => decline .lambda (.voidLambda t)
  | none, none => returnVoid body.isSome
  | some r, none =>
    coerce ctx r
    returnVoid true
  | some r, some t =>
    coerce ctx r
    coerce ctx t
    Codegen.own ctx .lambda
    emit .lambda .ret [] []

def function (enclosing : Option Bindings) (l : Lambda) (shape : Shape) (body : Codegen Unit) :
    Codegen Function := do
  allocateParams ctx l.id l.params shape.params
  let captures ← bindCaptures ctx enclosing 0 (ctx.captures.of l.id)
  prologue ctx l.id 0 l.params shape.params
  body
  epilogue ctx l.body.type l.result shape.result
  let f := (← get).function
  if f.stack.depth ≠ 0 then fault .lambda (.leftOver f.stack.depth)
  else
    return {
      name := f.name, chunk := f.chunk, arity := l.params.length, locals := f.slots.count
      maxStack := f.stack.max, captures := captures, type := some l.type }

def newFunction (name : String) : FunctionState :=
  { name := name
    chunk := { depths := if ctx.options.recordDepths then some #[] else none }
    slots := Slots.start ctx.options.reuseSlots }

def nestedName (name : String) : Codegen String := do
  if name = "" then
    modifyGet fun s =>
      (s.function.name ++ "$" ++ toString (s.names + 1), { s with names := s.names + 1 })
  else return name

def lambdaCode (l : Lambda) (body : Codegen Unit) : Codegen Unit := do
  checkProblem ctx .lambda l.id
  if maxArgs < l.params.length then decline .lambda .manyParameters
  else
    let name ← nestedName l.name
    let outer := (← get).function
    modify fun s => { s with function := newFunction ctx name }
    let f ← function ctx (some outer.env) l l.shape body
    let index ← modifyGet fun s =>
      (s.functions.size, { s with functions := s.functions.push f, function := outer })
    emit .lambda .closure [← constant .lambda (.function index)] [owned l.type]

/-! ### Expressions -/

mutual

def compile : Expr → Codegen Unit
  | .constant v t => constantCode v t
  | .var v => variableCode ctx v
  | .hostVar _ cell t => hostVarCode cell t
  | .default t => defaultCode ctx .default t
  | .member o (.field f) => fieldCode ctx f (compile o)
  | .member o (.property p) =>
    callOnCode ctx .memberAccess o.type (isPath ctx.types o) p.getter [] (compile o) fun _ => pure ()
  | .call o m args =>
    callOnCode ctx .methodCall o.type (isPath ctx.types o) m args (compile o) (compileArgs .methodCall args)
  | .callStatic m args => callStaticCode ctx m args (compileArgs .methodCall args)
  | .new t c args => newCode ctx .new t c args (compileArgs .new args)
  | .init t c args members values =>
    initCode ctx t (newCode ctx .memberInit t c args (compileArgs .memberInit args))
      (compileBindings t members values)
  | .convert _ (some m) _ => decline .convert (.conversionMethod m)
  | .convert e none t => convertCode ctx e.type t (compile e)
  | .lambda id name params body result type =>
    lambdaCode ctx ⟨id, name, params, body, result, type⟩ (compile body)
  | .cond c a b => condCode a.type.isNone (compile c) (compile a) (compile b)
  | .binary _ _ _ (some m) _ => decline .binary (.operatorMethod m)
  | .binary .andAlso l r none _ => logicalCode true (compile l) (compile r)
  | .binary .orElse l r none _ => logicalCode false (compile l) (compile r)
  | .binary op l r none t => strictCode (operator? ctx.types op l.type r.type) t (compile l) (compile r)
  | .unary op e => unaryCode op e.type (compile e)
  | .assign (.var v) value => assignVarCode ctx v value.type (compile value)
  | .assign (.hostVar _ cell t) value => assignHostCode ctx cell t value.type (compile value)
  | .assign (.member o m) value =>
    assignMemberCode ctx o.type (isPath ctx.types o) m value.type (compile o) (compile value)
  | .assign (.index a i) value =>
    assignIndexCode ctx (a.type.bind Ty.elem?) value.type (compile a) (compile i) (compile value)
  | .assign target _ => decline .assign (.notAssignable target.kind)
  | .block id vars es => blockCode ctx id vars (compileAll es)
  | .apply f args _ =>
    applyCode ctx (f.type.bind ctx.types.signature?) args (compile f) (compileArgs .invoke args)
  | .newArray t n => newArrayCode t (compile n)
  | .arrayOf t items => arrayOfCode ctx t items (compileArgs .newArray items)
  | .index a i => indexCode (a.type.bind Ty.elem?) (compile a) (compile i)
  | .length a => lengthCode (compile a)
  | .absent => fault .block .missing

/-- Pushes arguments from the left, converted as planned and owned. -/
def compileArgs (kind : Kind) : List Expr → List Plan → Codegen Unit
  | [], _ => pure ()
  | e :: es, plans =>
    match plans with
    | [] => pure ()
    | p :: ps => do
      compile e
      deliver ctx kind p
      compileArgs kind es ps

def compileAll : List Expr → Codegen Unit
  | [] => pure ()
  | e :: es => do
    compile e
    if !es.isEmpty && e.type.isSome then emit .block .pop [] []
    compileAll es

/-- Stores a value in each of the members of a receiver that `push` pushes. -/
def compileBindings (t : Ty) (members : List Member) : List Expr → Codegen Unit → Codegen Unit
  | [], _ => pure ()
  | e :: es, push =>
    match members with
    | [] => pure ()
    | m :: ms => do
      push
      storeMemberCode ctx .memberInit t m e.type false (compile e)
      compileBindings t ms es push

end

end Codegen

/-- What compiling comes to before a failure is logged. -/
def Compiler.compile (U : Universe) (options : Options) (root : Option Lambda) (shape : Shape) :
    Except CompileError Artifact :=
  match root with
  | none => .error (.unsupported .lambda .noRoot)
  | some l =>
    if shape.params.length ≠ l.params.length then
      .error (.unsupported .lambda (.shapeCount shape.params.length l.params.length))
    else if Codegen.maxArgs < l.params.length then .error (.unsupported .lambda .manyParameters)
    else
      let captures := Captures.analyze U l options.inlineCaptures
      let ctx : Codegen.Context := { types := U, captures := captures, options := options }
      match captures.problem? l.id with
      | some p => .error (.unsupported .lambda (.scope p))
      | none =>
        let start : CodegenState := { function := Codegen.newFunction ctx l.rootName }
        match Codegen.function ctx none l shape (Codegen.compile ctx l.body) start with
        | .ok main s =>
          .ok { image := s.functions, main := main, params := shape.params, result := shape.result
                hostCells := s.hostCells.toList, verify := options.verify }
        | .error e _ => .error e

/-- What the caller of the compiler gets. A failure is logged with the text of the tree before it is
returned, so that nothing comes back where the text has no end or there is no tree. -/
def Compiler.answer (U : Universe) (s : Store) (options : Options) (root : Option Lambda) (shape : Shape) :
    Except CompileFailure Artifact :=
  match compile U options root shape with
  | .ok a => .ok a
  | .error e =>
    match root with
    | none => .error .crashed
    | some l => .error (if l.toExpr.prints s then .error e else .endless)

end TreeMachine
