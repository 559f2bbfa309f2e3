import TreeMachine.Scenario.Fixtures
import TreeMachine.Tree.Build

/-!
# Scenarios

A scenario builds a tree with the arguments to call it with and what to expect of the call. Each run
starts on a fresh bench.
-/

namespace TreeMachine

inductive Expectation where
  | equal (v : Value)
  | boxed (t : Ty) (v : Value)
  | hostText (cell : Loc) (text : String)
  | untouched (arg : Value) (x : Int64) (result : Int64)

def Expectation.mismatch? (U : Universe) (s : Store) (got : Value) : Expectation → Option String
  | equal v =>
    if s.equal got v then none else some s!"got={s.render U got}, want={s.render U v}"
  | boxed t v =>
    if (s.payload? got).isNone || s.dynamicType got ≠ some t then
      some s!"got={s.render U got}, want a boxed {U.name t}"
    else if s.equal got v then none
    else some s!"payload={s.render U (s.unboxed got)}, want={s.render U v}"
  | hostText cell text =>
    let found := ((s.getNamed U (s.load cell) "Value").getD .nil).str
    if found = text then none else some s!"host s.Value={Text.quote found}, want={Text.quote text}"
  | untouched arg x result =>
    let found := ((s.getNamed U arg "X").getD .nil).asInt U
    if !s.equal got (.ofInt32 result) then some s!"got={s.render U got}, want={result.toInt}"
    else if found = x then none
    else some s!"caller's point changed: X={found.toInt}"

structure ScenarioCase where
  lambda : Lambda
  shape : Shape
  args : List Value
  expectation : Expectation

structure Scenario where
  name : String
  declined : Bool := false
  make : Build ScenarioCase

namespace Scenario

def of (name : String) (make : Build ScenarioCase) : Scenario := { name, make }

def bench : Bench := { types := types }

def build (c : Scenario) : Except BuildError (ScenarioCase × Bench) :=
  match c.make bench with
  | .ok a b => .ok (a, b)
  | .error e _ => .error e

/-! ### Parts of scenarios -/

def caseOf (l : Lambda) (want : Value) (args : List Value) : ScenarioCase :=
  { lambda := l, shape := l.shape, args := args, expectation := .equal want }

def run (params : List Var) (body : Expr) (want : Value) (args : List Value) : Build ScenarioCase := do
  return caseOf (← Build.lambda body params) want args

def int32 (n : Int64) : Build Expr := Build.const (.ofInt32 n)

def text (s : String) : Build Expr := Build.const (.ofString s)

def param (name : String) (t : Ty) : Build Var := Build.param name (some t)

def member (e : Expr) (name : String) : Build Expr := Build.member (some e) name

def send (e : Expr) (name : String) (args : List Expr) : Build Expr :=
  Build.call (some e) name (args.map some)

def apply (f : Expr) (args : List Expr) : Build Expr := Build.apply f (args.map some)

def new (t : Ty) (args : List Expr) : Build Expr := Build.new (some t) (args.map some)

def convert (e : Expr) (t : Ty) : Build Expr := Build.convert e (some t)

def assignMember (e : Expr) (name : String) (value : Expr) : Build Expr := do
  Build.assign (← member e name) value

def init (t : Ty) (bindings : List (String × Expr)) : Build Expr := do
  let bs ← bindings.mapM fun (n, e) => do return (← Build.bindMember t n, some e)
  Build.init (← new t []) bs

def closure (body : Expr) (params : List Var) : Build Expr := do
  return (← Build.lambda body params).toExpr

def struct (t : Ty) (fields : List (String × Value)) : Build Value := do
  let U ← Build.types
  Build.onStore fun s =>
    let (v, s) := Store.newAggregate U t s
    (v, fields.foldl (fun s (n, x) => (Store.setNamed U v n x s).getD s) s)

def structAValue (n m : Int64) (sf sp : String) : Build Value :=
  struct structA
    [("N", .ofInt32 n), ("<M>", .ofInt32 m), ("Sf", .ofString sf), ("<Sp>", .ofString sp)]

def ssValue (s : String) : Build Value := struct ss [("Value", .ofString s)]

def pointValue (x y : Int64) : Build Value := struct point [("X", .ofInt32 x), ("Y", .ofInt32 y)]

def moneyValue (cents : Int64) : Build Value := struct money [("Cents", .ofInt64 cents)]

def dogValue (name : String) : Build Value := do
  let U ← Build.types
  Build.onStore fun s =>
    let (v, s) := Store.newObject U dog s
    (v, (Store.setNamed U v "Name" (.ofString name) s).getD s)

end Scenario

end TreeMachine
