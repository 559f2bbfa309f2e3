import TreeMachine.Types.Lookup

/-!
# Which types convert to which

Three relations between static types, each wider than the one before: assignable (no instruction is
needed, see `Universe.assignable`), implicitly convertible (also widening and boxing) and explicitly
convertible (also narrowing, enum reinterpretation, unboxing and checked reference casts).
-/

namespace TreeMachine.Universe

variable (U : Universe)

/-- A lossless conversion between distinct numbers. -/
def isWidening (source target : Ty) : Bool :=
  match (U.decl source).form, (U.decl target).form with
  | .scalar p, .scalar q => p.isNumeric && q.isNumeric && p.rank < q.rank
  | _, _ => false

/-- A value of type `source` can be boxed to `target`: to `object` or `ValueType`, an enum also to
`Enum`, and any value to an interface its type implements. -/
def boxesTo (source target : Ty) : Bool :=
  U.isValue source &&
    if target = .object || target = .valueType then true
    else if target = .enumBase then U.isEnum source
    else U.isInterface target && U.implements source target

/-- `source` converts to `target` where a value is assigned, passed or returned. -/
def convertsImplicitly (source target : Ty) : Bool :=
  if source = target then true
  else if U.isValue source then U.isWidening source target || U.boxesTo source target
  else U.assignable source target

/-- `source` converts to `target` when the tree asks for the conversion. -/
def convertsExplicitly (source target : Ty) : Bool :=
  if U.convertsImplicitly source target then true
  else
    match U.storage source, U.storage target with
    | .scalar, .scalar =>
      (U.primitive? source).any Primitive.isNumeric && (U.primitive? target).any Primitive.isNumeric
    | _, .scalar | _, .aggregate => U.boxesTo target source
    | .scalar, _ | .aggregate, _ => false
    | .interface, .interface => true
    | .interface, .reference => !U.isSealed target || U.implements target source
    | .reference, .interface => !U.isSealed source || U.implements source target
    | .reference, .reference => U.assignable target source

/-- `boxesTo` where a type may be missing; nothing boxes from or to void. -/
def boxesToOf : Option Ty → Option Ty → Bool
  | some t, some u => U.boxesTo t u
  | _, _ => false

def convertsImplicitlyOf : Option Ty → Option Ty → Bool
  | some t, some u => U.convertsImplicitly t u
  | none, none => true
  | _, _ => false

def convertsExplicitlyOf : Option Ty → Option Ty → Bool
  | some t, some u => U.convertsExplicitly t u
  | none, none => true
  | _, _ => false

end TreeMachine.Universe
