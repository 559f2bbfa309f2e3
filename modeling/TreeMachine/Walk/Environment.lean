import TreeMachine.Tree.Basic

/-!
# Environments

A scope binds variables to the cells that hold them; an environment is a scope with the scopes
around it, innermost first. Every variable lives in a cell, so a closure shares the storage of the
scopes it was made in.
-/

namespace TreeMachine

abbrev Scope := List (Nat × Loc)

/-- The scopes visible at a point of a tree, innermost first. -/
abbrev Environment := List Scope

def Scope.bind (s : Scope) (v : Var) (cell : Loc) : Scope :=
  (v.id, cell) :: s.filter fun b => b.1 != v.id

def Environment.cell? (env : Environment) (v : Var) : Option Loc :=
  env.findSome? fun s => s.lookup v.id

end TreeMachine
