import TreeMachine.Codegen.Slots
import TreeMachine.Tree.Basic

/-!
# Captured variables

A pass over a tree, in the order of evaluation, that finds for every lambda the variables it captures
and for every variable how closures see it. A captured variable can be copied into closures if nothing
writes it once the first closure over it exists: neither a closure, nor its owner at a later position.

A declaration is a lambda or block together with one of its variables. A node that stands at several
places of a tree is visited at each; the last visit decides about its declarations.
-/

namespace TreeMachine

structure Variable where
  var : Var
  owner : Nat
  decl : Nat
  firstCapture : Option Nat := none
  lastWrite : Option Nat := none
  nestedWrite : Bool := false
  mode : CaptureMode := .none
deriving DecidableEq, Repr, Inhabited

inductive ScopeProblem where
  | declaredTwice (name : String)
  | unbound (name : String)
deriving DecidableEq, Repr

def ScopeProblem.message : ScopeProblem → String
  | declaredTwice name => s!"variable {name} declared twice"
  | unbound name => s!"unbound variable {name}"

/-- The outcome of the pass. Variables are numbered in the order of their declarations; nodes are
told apart by their identities. -/
structure Captures where
  vars : Array Variable := #[]
  /-- The variable of each declaration: identity of the node, identity of the variable and number. -/
  decls : List ((Nat × Nat) × Nat) := []
  /-- The variables that each lambda captures, in the order of their first appearance. -/
  captured : List (Nat × List Nat) := []
  problems : List (Nat × ScopeProblem) := []
deriving Repr, Inhabited

namespace Captures

def number? (c : Captures) (decl : Nat) (v : Var) : Option Nat := c.decls.lookup (decl, v.id)

def mode (c : Captures) (i : Nat) : CaptureMode := (c.vars.getD i default).mode

def of (c : Captures) (lambda : Nat) : List Nat := (c.captured.lookup lambda).getD []

def problem? (c : Captures) (node : Nat) : Option ScopeProblem := c.problems.lookup node

def insert {α : Type} (key : Nat) (a : α) (entries : List (Nat × α)) : List (Nat × α) :=
  (key, a) :: entries.filter (·.1 != key)

end Captures

structure CapturePass where
  out : Captures := {}
  pos : Nat := 0
  /-- The lambdas around the current node, innermost first, each with its position. -/
  lambdas : List (Nat × Nat) := []
  visible : List (Nat × Nat) := []
deriving Inhabited

namespace CapturePass

def next (p : CapturePass) : CapturePass := { p with pos := p.pos + 1 }

def current (p : CapturePass) : Nat := (p.lambdas.head?.map (·.1)).getD 0

def modifyVariable (p : CapturePass) (i : Nat) (f : Variable → Variable) : CapturePass :=
  { p with out := { p.out with vars := p.out.vars.modify i f } }

def declare (decl : Nat) (p : CapturePass) (v : Var) : CapturePass :=
  let out := p.out
  let problems :=
    if (p.visible.lookup v.id).isSome then
      Captures.insert decl (.declaredTwice v.name) out.problems
    else out.problems
  let i := out.vars.size
  { p with
    visible := (v.id, i) :: p.visible
    out := { out with
      problems := problems
      vars := out.vars.push { var := v, owner := p.current, decl := decl }
      decls := ((decl, v.id), i) :: out.decls.filter (·.1 != (decl, v.id)) } }

def declareAll (p : CapturePass) (decl : Nat) (vs : List Var) : CapturePass :=
  vs.foldl (declare decl) p

def capture (i : Nat) (p : CapturePass) (lambda : Nat × Nat) : CapturePass :=
  let known := p.out.of lambda.1
  let out :=
    if known.contains i then p.out
    else { p.out with captured := Captures.insert lambda.1 (known ++ [i]) p.out.captured }
  { p with out := out }.modifyVariable i fun v =>
    let first :=
      match v.firstCapture with
      | some q => if lambda.2 < q then lambda.2 else q
      | none => lambda.2
    { v with firstCapture := some first }

/-- A variable is read or written: every lambda between its owner and here captures it. -/
def reference (p : CapturePass) (v : Var) : CapturePass :=
  match p.visible.lookup v.id with
  | none => { p with out := { p.out with problems := Captures.insert v.id (.unbound v.name) p.out.problems } }
  | some i =>
    let owner := (p.out.vars.getD i default).owner
    (p.lambdas.takeWhile (·.1 != owner)).foldl (capture i) p

def write (p : CapturePass) (v : Option Var) : CapturePass :=
  match v.bind fun v => p.visible.lookup v.id with
  | none => p
  | some i =>
    if (p.out.vars.getD i default).owner != p.current then
      p.modifyVariable i fun x => { x with nestedWrite := true }
    else
      let p := p.next
      p.modifyVariable i fun x => { x with lastWrite := some p.pos }

/-- The variable whose storage a write to the expression changes: the variable itself, or the struct
variable at the root of a path of members. -/
def writeRoot (U : Universe) : Expr → Option Var
  | .var v => some v
  | .member o _ => if o.type.any U.isAggregate then writeRoot U o else none
  | _ => none

def leave (p : CapturePass) (visible : List (Nat × Nat)) : CapturePass := { p with visible := visible }

def enterLambda (p : CapturePass) (id : Nat) (params : List Var) : CapturePass :=
  let p := p.next
  { p with lambdas := (id, p.pos) :: p.lambdas }.declareAll id params

def leaveLambda (p : CapturePass) (visible : List (Nat × Nat)) : CapturePass :=
  { p with visible := visible, lambdas := p.lambdas.tail }

def writeReceiver (U : Universe) (p : CapturePass) (o : Expr) : CapturePass :=
  if o.type.any U.isAggregate then p.write (writeRoot U o) else p

variable (U : Universe)

mutual

def visit : Expr → CapturePass → CapturePass
  | .constant _ _, p | .hostVar _ _ _, p | .default _, p | .absent, p => p.next
  | .var v, p => p.next.reference v
  | .member o _, p => visit o p.next
  | .call o _ args, p => (visitAll args (visit o p.next)).writeReceiver U o
  | .callStatic _ args, p => visitAll args p.next
  | .new _ _ args, p => visitAll args p.next
  | .init _ _ args _ values, p => visitAll values (visitAll args p.next.next)
  | .convert e _ _, p => visit e p.next
  | .lambda id _ params body _ _, p => (visit body (p.enterLambda id params)).leaveLambda p.visible
  | .cond c a b, p => visit b (visit a (visit c p.next))
  | .binary _ l r _ _, p => visit r (visit l p.next)
  | .unary _ e, p => visit e p.next
  | .assign target value, p => (visit value (visit target p.next)).write (writeRoot U target)
  | .block id vars es, p => (visitAll es (p.next.declareAll id vars)).leave p.visible
  | .apply f args _, p => visitAll args (visit f p.next)
  | .newArray _ n, p => visit n p.next
  | .arrayOf _ items, p => visitAll items p.next
  | .index a i, p => visit i (visit a p.next)
  | .length a, p => visit a p.next

def visitAll : List Expr → CapturePass → CapturePass
  | [], p => p
  | e :: es, p => visitAll es (visit e p)

end

end CapturePass

namespace Captures

def modeOf (inline : Bool) (v : Variable) : CaptureMode :=
  match v.firstCapture with
  | none => .none
  | some first =>
    if !inline || v.nestedWrite || v.lastWrite.any (first < ·) then .byReference else .byValue

def isCurrent (c : Captures) (i : Nat) (v : Variable) : Bool := c.number? v.decl v.var = some i

/-- Decides about all variables. One whose declaration a later visit made anew stays without a mode. -/
def decide (inline : Bool) (c : Captures) : Captures :=
  { c with
    vars := c.vars.mapIdx fun i v =>
      if c.isCurrent i v then { v with mode := modeOf inline v } else v }

def analyze (U : Universe) (root : Lambda) (inline : Bool) : Captures :=
  ((({} : CapturePass).enterLambda root.id root.params |> CapturePass.visit U root.body).leaveLambda
    []).out.decide inline

end Captures

/-- A struct that lives in a cell instead of a slot. -/
def Variable.isHoisted (U : Universe) (v : Variable) : Bool :=
  v.mode = .byReference && U.isAggregate v.var.type

end TreeMachine
