import TreeMachine.Tree.Visit
import TreeMachine.Value.Display

/-!
# Printing trees

Trees are written with infix operators. An operator of lower precedence than its surroundings is put
in parentheses; binary operators group to the left.
-/

namespace TreeMachine

def BinaryOp.precedence : BinaryOp → Nat
  | orElse => 1
  | andAlso => 2
  | equal | notEqual => 3
  | less | lessEqual | greater | greaterEqual => 4
  | add | sub => 5
  | mul | div | mod => 6

namespace Precedence

/-- Anything may stand here without parentheses. -/
def lowest : Nat := 0

def conditional : Nat := 1

/-- The operand of a unary operator or conversion. -/
def unary : Nat := 10

/-- What a member, argument list or index is attached to. -/
def attached : Nat := 11

end Precedence

open Precedence (lowest conditional attached)

def parenthesized (needed : Bool) (text : String) : String :=
  if needed then "(" ++ text ++ ")" else text

namespace Expr

variable (U : Universe) (s : Store)

def formatConstant (v : Value) : String :=
  match v.datum with
  | .bool b => if b then "true" else "false"
  | _ => s.render U v

def formatVar (v : Var) : String := U.name v.type ++ " " ++ v.name

mutual

/-- Writes an expression whose surroundings bind with precedence `outer`; `onRight` holds for a right
operand. -/
def formatIn : Expr → (outer : Nat) → (onRight : Bool) → String
  | constant v _, _, _ => formatConstant U s v
  | var v, _, _ => v.name
  | hostVar name _ _, _, _ => "[" ++ name ++ "]"
  | binary op l r _ _, outer, onRight =>
    let p := op.precedence
    parenthesized (p < outer || (p == outer && onRight))
      (formatIn l p false ++ " " ++ op.symbol ++ " " ++ formatIn r p true)
  | cond c a b, outer, _ =>
    parenthesized (conditional < outer)
      (formatIn c (conditional + 1) false ++ " ? " ++
        formatIn a conditional false ++ " : " ++ formatIn b conditional true)
  | assign target value, outer, _ =>
    parenthesized (lowest < outer)
      (formatIn target attached false ++ " = " ++ formatIn value lowest true)
  | unary op e, _, _ => op.symbol ++ formatIn e Precedence.unary false
  | convert e _ t, _, _ => "(" ++ U.nameOf t ++ ")" ++ formatIn e Precedence.unary false
  | lambda _ _ params body _ _, outer, _ =>
    parenthesized (lowest < outer)
      ("(" ++ ", ".intercalate (params.map (formatVar U)) ++ ") => " ++
        formatIn body lowest false)
  | member o m, _, _ => formatIn o attached false ++ "." ++ m.name
  | call o m args, _, _ =>
    formatIn o attached false ++ "." ++ m.name ++ "(" ++ formatArgs args ++ ")"
  | callStatic m args, _, _ => U.name m.owner ++ "." ++ m.name ++ "(" ++ formatArgs args ++ ")"
  | new t _ args, _, _ => "new " ++ U.name t ++ "(" ++ formatArgs args ++ ")"
  | init t _ args members values, _, _ =>
    "new " ++ U.name t ++ "(" ++ formatArgs args ++ ") \x7b" ++ formatBindings members values ++ " \x7d"
  | block _ vars es, _, _ =>
    "\x7b " ++ String.join (vars.map fun v => formatVar U v ++ "; ") ++ formatStatements es ++ "\x7d"
  | apply f args _, _, _ => formatIn f attached false ++ "(" ++ formatArgs args ++ ")"
  | default t, _, _ => "default(" ++ U.name t ++ ")"
  | newArray t n, _, _ => "new " ++ U.name t ++ "[" ++ formatIn n lowest false ++ "]"
  | arrayOf t items, _, _ => "new " ++ U.name t ++ "[] \x7b" ++ formatItems items ++ " \x7d"
  | index a i, _, _ =>
    formatIn a attached false ++ "[" ++ formatIn i lowest false ++ "]"
  | length a, _, _ => formatIn a attached false ++ ".Length"
  | absent, _, _ => "<nil>"

def formatArgs : List Expr → String
  | [] => ""
  | [e] => formatIn e lowest false
  | e :: d :: es => formatIn e lowest false ++ ", " ++ formatArgs (d :: es)

def formatItems : List Expr → String
  | [] => ""
  | [e] => " " ++ formatIn e lowest false
  | e :: d :: es => " " ++ formatIn e lowest false ++ "," ++ formatItems (d :: es)

def formatBindings : List Member → List Expr → String
  | m :: ms, e :: es =>
    " " ++ m.name ++ " = " ++ formatIn e lowest false ++
      (if es.isEmpty then "" else ",") ++ formatBindings ms es
  | _, _ => ""

def formatStatements : List Expr → String
  | [] => ""
  | e :: es => formatIn e lowest false ++ "; " ++ formatStatements es

end

def format (e : Expr) : String := formatIn U s e lowest false

/-- A unary operator is printed without parentheses also where something is attached to it, so that the hash code of a
negative number is printed like the negative of a hash code. -/
theorem format_hashCode_negate :
    let x : Expr := .var ⟨0, "x", .int32⟩
    let hashCode (e : Expr) : Expr := .call e Builtin.objectHashCode []
    hashCode (.unary .negate x) ≠ .unary .negate (hashCode x) ∧
      format {} {} (hashCode (.unary .negate x)) = "-x.GetHashCode()" ∧
      format {} {} (.unary .negate (hashCode x)) = "-x.GetHashCode()" := by
  refine ⟨nofun, ?_, ?_⟩ <;> decide +kernel

/-- Printing a tree comes to an end, because writing its constants does. -/
def prints (e : Expr) : Bool :=
  (visitOnto (fun _ => false) e []).all fun
    | constant v _ => s.renders v
    | _ => true

end Expr

end TreeMachine
