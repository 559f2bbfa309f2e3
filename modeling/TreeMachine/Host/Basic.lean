import TreeMachine.Text.Search
import TreeMachine.Text.Uppercase
import TreeMachine.Value.Check
import TreeMachine.Value.Copy
import TreeMachine.Value.Display
import TreeMachine.Value.Equality

/-!
# The host

Methods are implemented by the host: by the builtin bodies of the builtin types, or by routines
that declarations refer to by number. A routine works on the store like an execution does, and may
call delegates back.
-/

namespace TreeMachine

abbrev Caller := Delegate → List Value → Exec Value

/-- Host code behind a method or delegate: takes the receiver and the arguments. -/
abbrev Routine := Universe → Caller → Value → List Value → Exec Value

/-- The text whose hash stands for a receiver without storage. -/
def noStorage : String := "%!p(<nil>)"

structure Host where
  types : Universe := {}
  routines : Array Routine := #[]
  /-- The text of an address, which is the host's choice. -/
  address : Datum → String := fun _ => noStorage
deriving Inhabited

namespace Exec

def step {α : Type} (f : Store → α × Store) : Exec α := modifyGet f

/-- Copying goes on forever where a struct lies inside itself. -/
def nesting (v : Value) : Exec Unit := do ending ((← get).nests v)

def clone (v : Value) : Exec Value := do
  nesting v
  step (Store.clone v)

def cloneAll (vs : List Value) : Exec (List Value) := do
  ending (vs.all (← get).nests)
  step (Store.cloneAll vs)

def box (v : Value) : Exec Value := do
  nesting v
  step (Store.box v)

def newCell (U : Universe) (t : Option Ty) (v : Value) : Exec Loc := do
  nesting v
  step (Store.newCell U t v)

def dynamicType (v : Value) : Exec (Option Ty) := do return (← get).dynamicType v

def unboxed (v : Value) : Exec Value := do return (← get).unboxed v

/-- Comparing goes on forever where it comes back to two structs that it is about to compare. -/
def equal (a b : Value) : Exec Bool := do
  ending ((← get).compares a b)
  return (← get).equal a b

def hash (U : Universe) (v : Value) : Exec UInt32 := do
  nesting (← unboxed v)
  getSome ((← get).hash U v)

end Exec

namespace Body

def compareScalars (U : Universe) (a b : Value) : Int :=
  match a.datum with
  | .float x =>
    match x.compare b.asFloat with
    | .lt => -1
    | .eq => 0
    | .gt => 1
  | .bool _ => a.datum.bits.toNat - b.datum.bits.toNat
  | _ =>
    let x := a.asInt U
    let y := b.asInt U
    if x < y then -1 else if y < x then 1 else 0

def ofInt (n : Int) : Value := .ofInt32 (Int64.ofInt n)

/-- Compares a scalar with an argument of the same type; null comes before everything. -/
def compareTo (U : Universe) (self other : Value) : Exec Value := do
  let a ← Exec.unboxed self
  let b ← Exec.unboxed other
  if b.isNil then return ofInt 1
  else if b.type != a.type then Exec.fail (.wrongArgument a.type)
  else return ofInt (compareScalars U a b)

/-- Compares a text with an argument by code points; null comes before everything. -/
def compareTextTo (self other : Value) : Exec Value :=
  match other.datum with
  | .null => return ofInt 1
  | .text t =>
    return ofInt (if self.str < t then -1 else if t < self.str then 1 else 0)
  | _ => Exec.fail (.wrongArgument (some .string))

def run (H : Host) (call : Caller) (b : Body) (self : Value) (args : List Value) : Exec Value := do
  let U := H.types
  match b with
  | .objectToString => return .ofString ((← get).text U self)
  | .objectEquals =>
    let other ← Exec.getSome args.head?
    return .ofBool (self.sameRef other)
  | .objectHashCode =>
    -- structs and boxes have a hash code of their own
    let address := if self.datum.hasIdentity then H.address self.datum else noStorage
    return .ofInt32 (Store.hashText Store.hashStart address).toUInt64.toInt64
  | .valueEquals =>
    let other ← Exec.getSome args.head?
    return .ofBool (← Exec.equal self other)
  | .valueHashCode =>
    return .ofInt32 (← Exec.hash U self).toUInt64.toInt64
  | .scalarCompareTo => compareTo U self (← Exec.getSome args.head?)
  | .stringLength => return .ofInt32 (Int64.ofNat self.str.length)
  | .stringToUpper => return .ofString (Text.upper self.str)
  | .stringContains =>
    let pattern ← Exec.getSome args.head?
    return .ofBool (Text.contains self.str pattern.str)
  | .stringCompareTo => compareTextTo self (← Exec.getSome args.head?)
  | .readField index => Exec.getSome ((← get).fields self)[index]?
  | .writeField index =>
    let v ← Exec.getSome args.head?
    if index < ((← get).fields self).size then
      modify fun s => s.setField self index v
      return .nil
    else Exec.corrupt
  | .host routine =>
    match H.routines[routine]? with
    | some r => r U call self args
    | none => Exec.corrupt

theorem run_host (H : Host) (call : Caller) (routine : Nat) (self : Value) (args : List Value) :
    (host routine).run H call self args =
      (H.routines[routine]?).elim Exec.corrupt fun r => r H.types call self args := by
  unfold run
  dsimp only
  cases H.routines[routine]? <;> rfl

end Body

def Host.invoke (H : Host) (call : Caller) (m : Method) (self : Value) (args : List Value) : Exec Value :=
  match m.body with
  | some b => b.run H call self args
  | none => Exec.fail (.noBody m)

end TreeMachine
