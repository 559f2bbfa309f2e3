import TreeMachine.Tree.Basic

/-!
# Visiting trees

Depth-first traversal in the order of evaluation. A node is visited before its parts; the traversal
does not enter the parts of a node whose kind is in `skip`. What is left out is not visited.
-/

namespace TreeMachine.Expr

mutual

/-- Adds the visited nodes of a tree to `acc`, latest first. -/
def visitOnto (skip : Kind → Bool) : Expr → List Expr → List Expr
  | e@(constant ..), acc | e@(var ..), acc | e@(hostVar ..), acc | e@(default ..), acc => e :: acc
  | e@(member o _), acc => if skip .memberAccess then e :: acc else visitOnto skip o (e :: acc)
  | e@(call o _ args), acc =>
    if skip .methodCall then e :: acc else visitAll skip args (visitOnto skip o (e :: acc))
  | e@(callStatic _ args), acc =>
    if skip .methodCall then e :: acc else visitAll skip args (e :: acc)
  | e@(new _ _ args), acc => if skip .new then e :: acc else visitAll skip args (e :: acc)
  | e@(init t c args _ values), acc =>
    if skip .memberInit then e :: acc
    else
      let acc := new t c args :: e :: acc
      visitAll skip values (if skip .new then acc else visitAll skip args acc)
  | e@(convert o _ _), acc => if skip .convert then e :: acc else visitOnto skip o (e :: acc)
  | e@(lambda _ _ _ body _ _), acc =>
    if skip .lambda then e :: acc else visitOnto skip body (e :: acc)
  | e@(cond c a b), acc =>
    if skip .conditional then e :: acc
    else visitOnto skip b (visitOnto skip a (visitOnto skip c (e :: acc)))
  | e@(binary _ l r _ _), acc =>
    if skip .binary then e :: acc else visitOnto skip r (visitOnto skip l (e :: acc))
  | e@(unary _ o), acc => if skip .unary then e :: acc else visitOnto skip o (e :: acc)
  | e@(assign target value), acc =>
    if skip .assign then e :: acc else visitOnto skip value (visitOnto skip target (e :: acc))
  | e@(block _ _ es), acc => if skip .block then e :: acc else visitAll skip es (e :: acc)
  | e@(apply f args _), acc =>
    if skip .invoke then e :: acc else visitAll skip args (visitOnto skip f (e :: acc))
  | e@(newArray _ n), acc => if skip .newArray then e :: acc else visitOnto skip n (e :: acc)
  | e@(arrayOf _ items), acc => if skip .newArray then e :: acc else visitAll skip items (e :: acc)
  | e@(index a i), acc =>
    if skip .arrayIndex then e :: acc else visitOnto skip i (visitOnto skip a (e :: acc))
  | e@(length a), acc => if skip .arrayLength then e :: acc else visitOnto skip a (e :: acc)
  | absent, acc => acc

def visitAll (skip : Kind → Bool) : List Expr → List Expr → List Expr
  | [], acc => acc
  | e :: es, acc => visitAll skip es (visitOnto skip e acc)

end

def visited (skip : Kind → Bool) (e : Expr) : List Expr := (visitOnto skip e []).reverse

def isComplete (e : Expr) : Bool :=
  e.isTyped && (visitOnto (fun _ => false) e []).all fun x => x.children.all (·.isTyped)

def count (e : Expr) : Nat := (visitOnto (fun _ => false) e []).length

end TreeMachine.Expr
