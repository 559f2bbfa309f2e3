import TreeMachine.Code.Opcode
import TreeMachine.Types.Conversion

/-!
# Planned conversions

A plan is the sequence of instructions that turns a value of one static type into a value of another.
Implicit plans are made of widening and boxing; explicit ones add narrowing, enum reinterpretation,
unboxing and checked casts. An empty plan between distinct types is an upcast.
-/

namespace TreeMachine

inductive ConversionStep where
  | box (t : Ty)
  | unbox (t : Ty)
  | cast (t : Ty)
  | retag (t : Ty)
  | widen (t : Ty)
  | narrow (t : Ty)
deriving DecidableEq, Repr

namespace ConversionStep

def opcode : ConversionStep → Opcode
  | box _ => .box
  | unbox _ => .unbox
  | cast _ => .cast
  | retag _ => .retag
  | widen _ => .widen
  | narrow _ => .narrow

def type : ConversionStep → Ty
  | box t | unbox t | cast t | retag t | widen t | narrow t => t

end ConversionStep

inductive PlanError where
  | void (source target : Option Ty)
  | noBoxing (source target : Ty)
  | implicitUnboxing (source target : Ty)
  | noUnboxing (source target : Ty)
  | noConversion (source target : Ty)
  | implicitEnum (source target : Ty)
  | implicitNarrowing (source target : Ty)
deriving DecidableEq, Repr

def PlanError.message (U : Universe) : PlanError → String
  | void a b => s!"no conversion between {U.nameOf a} and {U.nameOf b}"
  | noBoxing a b => s!"{U.name a} does not box to {U.name b}"
  | implicitUnboxing a b => s!"unboxing {U.name a} to {U.name b} requires an explicit conversion"
  | noUnboxing a b => s!"{U.name a} cannot hold a boxed {U.name b}"
  | noConversion a b => s!"no conversion from {U.name a} to {U.name b}"
  | implicitEnum a b => s!"{U.name a} to {U.name b} requires an explicit conversion"
  | implicitNarrowing a b => s!"narrowing {U.name a} to {U.name b} requires an explicit conversion"

structure Plan where
  source : Option Ty
  target : Option Ty
  steps : List ConversionStep := []
deriving DecidableEq, Repr

namespace Plan

def isIdentity (p : Plan) : Bool := p.source = p.target

def numericSteps (U : Universe) (source target : Ty) : List ConversionStep :=
  if source = target then []
  else if U.isWidening source target then [.widen target]
  else [.narrow target]

/-- The type of the numbers of a scalar: its own, or that of the numbers of an enum. -/
def numberType (U : Universe) (t : Ty) : Ty :=
  if U.isEnum t then ((U.primitive? t).map Primitive.type).getD t else t

def scalarSteps (U : Universe) (source target : Ty) (explicit : Bool) : Except PlanError (List ConversionStep) :=
  if U.primitive? source = some .bool || U.primitive? target = some .bool then
    .error (.noConversion source target)
  else if U.isEnum source || U.isEnum target then
    if explicit then
      let a := numberType U source
      let b := numberType U target
      .ok ((if U.isEnum source then [.retag a] else []) ++ numericSteps U a b ++
        if U.isEnum target then [.retag target] else [])
    else .error (.implicitEnum source target)
  else if explicit || U.isWidening source target then .ok (numericSteps U source target)
  else .error (.implicitNarrowing source target)

def steps? (U : Universe) (source target : Ty) (explicit : Bool) : Except PlanError (List ConversionStep) :=
  if U.isScalar source && U.isScalar target then scalarSteps U source target explicit
  else if U.isValue source then
    if U.boxesTo source target then .ok [.box source] else .error (.noBoxing source target)
  else if U.isValue target then
    if !explicit then .error (.implicitUnboxing source target)
    else if U.boxesTo target source then .ok [.unbox target]
    else .error (.noUnboxing source target)
  else if U.assignable source target then .ok []
  else if explicit && U.convertsExplicitly source target then .ok [.cast target]
  else .error (.noConversion source target)

def make (U : Universe) (source target : Option Ty) (explicit : Bool) : Except PlanError Plan :=
  if source = target then .ok ⟨source, target, []⟩
  else
    match source, target with
    | some a, some b => do return ⟨source, target, ← steps? U a b explicit⟩
    | _, _ => .error (.void source target)

end Plan

end TreeMachine
