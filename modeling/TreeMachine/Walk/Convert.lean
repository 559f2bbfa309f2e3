import TreeMachine.Host.Basic

/-!
# Conversions of values

`Walk.convert` turns a value of one static type into a value of another. Implicit conversions are
widening, boxing and upcasts; explicit ones add narrowing, enum reinterpretation, unboxing and checked
casts. Boxing copies the payload; an unboxed struct is the storage inside the box.
-/

namespace TreeMachine.Walk

def illTyped {α : Type} (reason : IllTyped) : Exec α := Exec.fail (.illTyped reason)

def numberType : Option Primitive → Ty
  | some .int64 => .int64
  | some .float64 => .float64
  | _ => .int32

/-- Converts a number to a primitive; floats are truncated toward zero and integers wrap. -/
def toPrimitive (U : Universe) (v : Value) : Option Primitive → Value
  | some .float64 =>
    match v.datum with
    | .float x => .ofFloat x
    | _ => .ofFloat (Binary64.ofInt64 (v.asInt U))
  | some .int64 =>
    match v.datum with
    | .float x => .ofInt64 x.toInt64
    | _ => .ofInt64 (v.asInt U)
  | _ =>
    match v.datum with
    | .float x => .ofInt32 x.toInt64
    | _ => .ofInt32 (v.asInt U)

def convertScalar (U : Universe) (v : Value) (source target : Ty) (explicit : Bool) : Exec Value :=
  let p := U.primitive? source
  let q := U.primitive? target
  if p = some .bool || q = some .bool then illTyped (.noConversion source target)
  else if U.isEnum source || U.isEnum target then
    if explicit then
      let number := toPrimitive U { v with type := some (numberType p) } q
      return if U.isEnum target then { number with type := some target } else number
    else illTyped (.implicitEnum source target)
  else if explicit || U.isWidening source target then return toPrimitive U v q
  else illTyped (.implicitNarrowing source target)

def unbox (v : Value) (target : Ty) : Exec Value := do
  if v.isNil then Exec.fail (.nullUnboxed target)
  else
    let s ← get
    match s.payload? v with
    | some p =>
      if p.type = some target then return p
      else Exec.fail (.notBoxed (s.dynamicType v) target)
    | none => Exec.fail (.notBoxed (s.dynamicType v) target)

def convertBetween (U : Universe) (v : Value) (source target : Ty) (explicit : Bool) : Exec Value := do
  if U.isScalar source && U.isScalar target then convertScalar U v source target explicit
  else if U.isValue source then
    if U.boxesTo source target then Exec.box v
    else illTyped (.noBoxing source target)
  else if U.isValue target then
    if explicit && U.boxesTo target source then unbox v target
    else illTyped (.noUnboxing source target)
  else if U.assignable source target then return v
  else if explicit && U.convertsExplicitly source target then
    Exec.checkReference U v target
    return v
  else illTyped (.noConversion source target)

def convert (U : Universe) (v : Value) (source target : Option Ty) (explicit : Bool) : Exec Value :=
  if source = target then return v
  else
    match source, target with
    | some a, some b => convertBetween U v a b explicit
    | _, _ => illTyped (.voidConversion source target)

end TreeMachine.Walk
