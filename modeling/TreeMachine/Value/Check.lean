import TreeMachine.Fault
import TreeMachine.Types.Conversion

/-!
# Which types a value belongs to
-/

namespace TreeMachine.Store

variable (U : Universe) (s : Store)

/-- A value that is not null may be seen as a `t`. A delegate also belongs to every delegate type of
its signature. There is no answer for a delegate where one of the two types is missing. -/
def isInstance (v : Value) (t : Option Ty) : Option Bool :=
  let dynamic := s.dynamicType v
  if dynamic = t || t = some .object then some true
  else
    match v.datum, t with
    | .box _, _ => some (U.boxesToOf dynamic t)
    | .delegate _, some u =>
      if U.isDelegate u then dynamic.map fun d => U.signature d = U.signature u else some false
    | .delegate _, none => none
    | _, _ => some (U.assignableOf dynamic t)

/-- The representation of a value can belong to `t`. -/
def isOf (v : Value) (t : Ty) : Option Bool :=
  match U.storage t with
  | .scalar =>
    some <| v.type = some t &&
      match U.primitive? t, v.datum with
      | some .bool, .bool _ => true
      | some .float64, .float _ => true
      | some .int32, .int _ | some .int64, .int _ => true
      | _, _ => false
  | .aggregate =>
    match v.datum with
    | .aggregate _ => some (s.dynamicType v = some t)
    | _ => some false
  | .reference | .interface => if v.isNil then some true else s.isInstance U v t

def accept (v : Value) (t : Option Ty) : Option Bool → Exec Unit
  | some true => return ()
  | some false => Exec.fail (.notInstance (s.dynamicType v) t)
  | none => Exec.corrupt

end TreeMachine.Store

namespace TreeMachine.Exec

def check (U : Universe) (v : Value) (t : Option Ty) : Exec Unit := do
  let s ← get
  s.accept v t (s.isOf U v (← getSome t))

def checkReference (U : Universe) (v : Value) (t : Option Ty) : Exec Unit := do
  let s ← get
  if v.isNil then return () else s.accept v t (s.isInstance U v t)

end TreeMachine.Exec
