import TreeMachine.Host.Basic
import TreeMachine.Types.Draft

/-!
# Types of the scenarios

The host types that the scenarios use, with the routines behind their methods.
-/

namespace TreeMachine.Scenario

/-! ### Routines -/

def structOf (v : Value) : Exec Value :=
  match v.datum with
  | .aggregate _ => return v
  | _ => Exec.corrupt

def instanceOf (v : Value) : Exec Value :=
  match v.datum with
  | .object _ => return v
  | _ => Exec.corrupt

def field (U : Universe) (v : Value) (name : String) : Exec Value := do
  Exec.getSome ((← get).getNamed U v name)

def setField (U : Universe) (owner : Value) (name : String) (v : Value) : Exec Unit := do
  Exec.nesting v
  set (← Exec.getSome ((← get).setNamed U owner name v))

def structText : Routine := fun U _ self _ => do
  let v ← field U (← structOf self) "N"
  return .ofString ((← get).text U v)

def setValue : Routine := fun U _ self args => do
  setField U (← structOf self) "Value" (← Exec.getSome args.head?)
  return .nil

def dispose : Routine := fun U _ self _ => do
  setField U (← structOf self) "Value" (.ofString "disposed")
  return .nil

def offset : Routine := fun U _ self args => do
  let p ← structOf self
  let d := (← Exec.getSome args.head?).asInt U
  setField U p "X" (.ofInt32 ((← field U p "X").asInt U + d))
  setField U p "Y" (.ofInt32 ((← field U p "Y").asInt U + d))
  return .nil

def nameAnimal : Routine := fun U _ self args => do
  setField U (← instanceOf self) "Name" (← Exec.getSome args.head?)
  return .nil

def silence : Routine := fun _ _ _ _ => return .ofString "..."

def woof : Routine := fun U _ self _ => do
  return .ofString ((← field U (← instanceOf self) "Name").str ++ ": woof")

/-! ### Types -/

def structA : Ty := .declared 0
def ss : Ty := .declared 1
def dateTimeKind : Ty := .declared 2
def point : Ty := .declared 3
def animal : Ty := .declared 4
def dog : Ty := .declared 5
def money : Ty := .declared 6
def moneyOps : Ty := .declared 7

def newMoney (U : Universe) (cents : Int64) (s : Store) : Value × Store :=
  let (v, s) := Store.newAggregate U money s
  (v, (Store.setNamed U v "Cents" (.ofInt64 cents) s).getD s)

def addMoney : Routine := fun U _ _ args => do
  let a ← structOf (← Exec.getSome args[0]?)
  let b ← structOf (← Exec.getSome args[1]?)
  let x := (← field U a "Cents").asInt U
  let y := (← field U b "Cents").asInt U
  Exec.step (newMoney U (x + y))

def fromCents : Routine := fun U _ _ args => do
  let n := (← Exec.getSome args.head?).asInt U
  Exec.step (newMoney U n)

def routines : Array Routine :=
  #[structText, setValue, dispose, offset, nameAnimal, silence, woof, addMoney, fromCents]

/-- The descriptions of the types; `dateTimeKind` is an enum and has none. -/
def specs : List (Option TypeSpec) :=
  [ some ⟨"StructA", .struct,
      [.field "N" (some .int32), .autoProperty "M" (some .int32), .field "Sf" (some .string),
        .autoProperty "Sp" (some .string), .overrideMethod "ToString" [] (some 0)]⟩,
    some ⟨"SS", .struct,
      [.field "Value" (some .string), .implements [some .disposable],
        .method "SetValue" [some .string] none (some 1), .method "Dispose" [] none (some 2)]⟩,
    none,
    some ⟨"Point", .struct,
      [.field "X" (some .int32), .field "Y" (some .int32),
        .method "Offset" [some .int32] none (some 3)]⟩,
    some ⟨"Animal", .classType none,
      [.field "Name" (some .string), .constructor [some .string] (some 4),
        .virtualMethod "Speak" [] (some .string) (some 5)]⟩,
    some ⟨"Dog", .classType (some animal),
      [.constructor [some .string] (some 4), .overrideMethod "Speak" [] (some 6)]⟩,
    some ⟨"Money", .struct, [.field "Cents" (some .int64)]⟩,
    some ⟨"MoneyOps", .classType none,
      [.staticMethod "Add" [some money, some money] (some money) (some 7),
        .staticMethod "FromCents" [some .int64] (some money) (some 8)]⟩ ]

def declareOne (U : Universe) : Option TypeSpec → Except DeclareError Universe
  | some spec => do return (← U.declare spec).2
  | none => do
    return (← U.declareEnum "DateTimeKind" (some .int32)
      [("Unspecified", 0), ("Utc", 1), ("Local", 2)]).2

def types : Universe :=
  match specs.foldlM declareOne {} with
  | .ok U => U
  | .error _ => {}

def host : Host := { types := types, routines := routines }

def typeNames : List (String × Ty) :=
  [("StructA", structA), ("SS", ss), ("DateTimeKind", dateTimeKind), ("Point", point),
    ("Animal", animal), ("Dog", dog), ("Money", money), ("MoneyOps", moneyOps)]

end TreeMachine.Scenario
