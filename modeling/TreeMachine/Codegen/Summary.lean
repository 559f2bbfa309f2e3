import TreeMachine.Codegen.Captures
import TreeMachine.Tree.Visit

/-!
# Summaries of captured variables

What the capture analysis found, as text: a line for each variable and each problem, and the names
each lambda captures.
-/

namespace TreeMachine.Captures

def kindOf (nodes : List Expr) (id : Nat) : Kind :=
  (nodes.findSome? fun e =>
    match e with
    | .lambda i .. | .block i .. => if i = id then some e.kind else none
    | _ => none).getD .parameter

def variableLines (U : Universe) (nodes : List Expr) (c : Captures) : List String :=
  let current := c.decls.filterMap fun d => c.vars[d.2]?
  let line (v : Variable) : String :=
    s!"{v.var.name} {U.name v.var.type} {(kindOf nodes v.decl).name} {v.mode.name}" ++
      if v.isHoisted U then " hoisted" else ""
  (current.map line).mergeSort (· ≤ ·)

def problemLines (nodes : List Expr) (c : Captures) : List String :=
  (c.problems.map fun p => s!"{(kindOf nodes p.1).name}: {p.2.message}").mergeSort (· ≤ ·)

def capturedNames (nodes : List Expr) (c : Captures) : List (List String) :=
  nodes.filterMap fun e =>
    match e with
    | .lambda id .. => some ((c.of id).map fun i => (c.vars.getD i default).var.name)
    | _ => none

end TreeMachine.Captures
