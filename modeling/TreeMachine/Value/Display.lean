import TreeMachine.Number.Shortest
import TreeMachine.Store
import TreeMachine.Text.Quoted

/-!
# The text of values

`text` is what converting a value to a string gives. `render` shows the structure of a value, with
fields and elements.
-/

namespace TreeMachine.Store

variable (U : Universe) (s : Store)

/-- Floats are written with the fewest digits that read back, with an exponent below the fourth
decimal place and from a million on. -/
def floatLayout : FloatLayout := ⟨-4, 6, 2, "+Inf", "-Inf", "NaN"⟩

def integerText (v : Value) : String :=
  let n := v.asInt U
  let name := (v.type.map fun t => U.enumName t n).getD ""
  if name = "" then toString n.toInt else name

def textAt : (n : Nat) → Value → String
  | 0, _ => ""
  | n + 1, v =>
    match v.datum with
    | .null => ""
    | .bool b => if b then "True" else "False"
    | .int _ => integerText U v
    | .float w => floatLayout.write w
    | .text t => t
    | .box loc =>
      match s.boxes[loc]? with
      | some p => textAt n p
      | none => ""
    | .array _ => U.nameOf v.type
    | _ => U.nameOf (s.dynamicType v)

def text (v : Value) : String := textAt U s (s.boxes.size + 1) v

def renderAt : (n : Nat) → Value → String
  | 0, _ => ""
  | n + 1, v =>
    match v.datum with
    | .text t => Text.quote t
    | .null => "null"
    | .aggregate _ | .object _ =>
      U.nameOf (s.dynamicType v) ++ "\x7b" ++
        ", ".intercalate ((s.fields v).toList.map (renderAt n)) ++ "\x7d"
    | .box loc =>
      match s.boxes[loc]? with
      | some p => "box(" ++ renderAt n p ++ ")"
      | none => ""
    | .array _ => "[" ++ ", ".intercalate (((s.items? v).getD #[]).toList.map (renderAt n)) ++ "]"
    | .delegate _ => "<" ++ U.nameOf v.type ++ ">"
    | _ => s.text U v

/-- A value with its structure. Storage without cycles nests no deeper than the store is large. -/
def render (v : Value) : String := renderAt U s (s.size + 1) v

/-- The values that are written within a value. -/
def within (v : Value) : List Value :=
  match v.datum with
  | .aggregate _ | .object _ => (s.fields v).toList
  | .box loc => s.boxes[loc]?.toList
  | .array _ => ((s.items? v).getD #[]).toList
  | _ => []

/-- Writing a value with its structure comes to an end: it does not lie inside itself. There are fewer
than four times `s.size` places with something within. -/
def renders (v : Value) : Bool := descends s.within (4 * s.size + 1) v

end TreeMachine.Store
