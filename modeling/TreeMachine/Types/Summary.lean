import TreeMachine.Types.Lookup

/-!
# Summaries of declarations

One line for each method and field, and the traits of a type.
-/

namespace TreeMachine.Universe

variable (U : Universe)

def methodSummary (m : Method) : String :=
  let slot : Int := (m.slot.map Int.ofNat).getD (-1)
  s!"{U.describe m} slot={slot}" ++ (if m.isStatic then " static" else "") ++
    (if m.isVirtual then " virtual" else "") ++ (if m.isConstructor then " ctor" else "") ++
    if m.body.isNone then " abstract" else ""

def fieldSummary (f : Field) : String := s!"{U.name f.type} {U.name f.owner}.{f.name} @{f.index}"

def propertySummary (p : Property) : String := s!"{U.nameOf p.type} {U.name p.owner}.{p.name}"

def traits (t : Ty) : String :=
  let all := [("enum", U.isEnum t), ("sealed", U.isSealed t), ("array", t.elem?.isSome),
    ("delegate", U.isDelegate t), ("interface", U.isInterface t), ("numeric", U.isNumeric t),
    ("value", U.isValue t)]
  " ".intercalate ((all.filter (·.2)).map (·.1))

end TreeMachine.Universe
