import TreeMachine.Walk.Eval

/-!
# Programs

A program is a tree bound to the shape it is called with. Calls of its lambdas nest at most as deep
as the program allows.
-/

namespace TreeMachine

namespace Walk

def runBody (ctx : Context) (l : Lambda) (body : Eval Value) : Eval Value := do
  let v ← body
  match l.result with
  | none => return .nil
  | some t =>
    let v ← at_ ctx .lambda (convert ctx.types v l.body.type (some t) false)
    Exec.clone v

/-- Calls a lambda from a function called `caller`, where calls may nest `n` deep. The arguments
must be converted and owned. -/
def callLambda (H : Host) (call : Caller) (maxDepth : Int) :
    (n : Nat) → (caller : String) → Callee → List Value → Eval Value
  | n, caller, c, args =>
    if args.length ≠ c.lambda.params.length then
      Exec.fail (.arity c.name c.lambda.params.length args.length)
    else
      match n with
      | 0 => located caller .lambda (Exec.fail (.nestedCalls maxDepth.toNat))
      | n + 1 => do
        let ctx : Context :=
          { host := H, call := call, function := c.name, maxDepth := maxDepth
            enter := callLambda H call maxDepth n c.name }
        let env ← declareAll H.types c.env c.lambda.params args
        runBody ctx c.lambda (eval ctx env c.lambda.body)

def callFromHost (H : Host) (call : Caller) (maxDepth : Int) (c : Callee) (args : List Value) :
    Exec Value := do
  let args ← Exec.cloneAll args
  (callLambda H call maxDepth maxDepth.toNat c.name c args).run' 0

end Walk

structure Program where
  name : String
  shape : Shape
  root : Lambda
  maxDepth : Int
deriving Inhabited

namespace Program

def defaultDepth : Int := 1024

def badParam? (U : Universe) : List Var → List (Option Ty) → Option (Var × Option Ty)
  | v :: vs, t :: ts =>
    if U.convertsImplicitlyOf t (some v.type) then badParam? U vs ts else some (v, t)
  | _, _ => none

def checkShape (U : Universe) (root : Lambda) (shape : Shape) : Except ShapeError Unit :=
  if shape.params.length ≠ root.params.length then
    .error (.parameterCount shape.params.length root.params.length)
  else
    match badParam? U root.params shape.params with
    | some (v, t) => .error (.parameter v.name t v.type)
    | none =>
      match shape.result, root.result with
      | none, _ => .ok ()
      | some t, none => .error (.voidLambda t)
      | some t, some r => if U.convertsImplicitly r t then .ok () else .error (.result r t)

def bind (U : Universe) (root : Option Lambda) (shape : Shape) (maxDepth : Int) :
    Except Cause Program := do
  match root with
  | none => .error (.shape .noRoot)
  | some l =>
    match checkShape U l shape with
    | .error e => .error (.shape e)
    | .ok () => return { name := l.rootName, shape := shape, root := l, maxDepth := maxDepth }

def argument (U : Universe) (v : Value) (shape : Option Ty) (param : Ty) : Exec Value := do
  Exec.check U v shape
  let v ← Walk.convert U v shape (some param) false
  Exec.clone v

def arguments (U : Universe) (i : Nat) :
    List Value → List (Option Ty) → List Var → Exec (List Value)
  | v :: vs, t :: ts, p :: ps => do
    let x ← Exec.mapError (.atArgument i) (argument U v t p.type)
    return x :: (← arguments U (i + 1) vs ts ps)
  | _, _, _ => return []

def call (H : Host) (callBack : Caller) (p : Program) (args : List Value) : Exec Value := do
  if args.length ≠ p.shape.params.length then
    Exec.fail (.arity p.name p.shape.params.length args.length)
  else
    let values ← arguments H.types 0 args p.shape.params p.root.params
    let v ← (Walk.callLambda H callBack p.maxDepth p.maxDepth.toNat p.name ⟨p.root, p.name, []⟩
      values).run' 0
    match p.shape.result with
    | none => return .nil
    | some t =>
      let v ← Walk.convert H.types v p.root.result (some t) false
      Exec.clone v

end Program

end TreeMachine
