import TreeMachine.Code.Function
import TreeMachine.Walk.Environment

/-!
# The store

Everything that has an identity is held in a store: the storage of structs and instances, boxes,
arrays, cells and delegates, each kind in a table of its own. Locations are handed out in order and
are never taken back, so a location keeps its meaning as the store grows.
-/

namespace TreeMachine

/-- The storage of a struct or an instance. Only an instance may lack a type; it has no fields then. -/
structure Record where
  type : Option Ty
  fields : Array Value
deriving Repr, Inhabited

structure Items where
  elem : Ty
  items : Array Value
deriving Repr, Inhabited

structure Cell where
  type : Option Ty
  value : Value
deriving Repr, Inhabited

inductive Delegate where
  | compiled (c : Closure)
  /-- A lambda of a tree, called `name`, with the environment it was made in. Calls below it nest at
  most `maxDepth` deep. -/
  | evaluated (l : Lambda) (name : String) (env : Environment) (maxDepth : Int)
  /-- A routine of the host; calling a missing one ends the execution. -/
  | host (name : String) (routine : Option Nat)
deriving Inhabited

def Delegate.text : Delegate → String
  | .compiled c => s!"<closure {c.function.name}>"
  | .evaluated _ name _ _ => s!"<closure {name}>"
  | .host name _ => s!"<host {name}>"

/-- Everything that has an identity, and the trace the host writes. -/
structure Store where
  aggregates : Array Record := #[]
  objects : Array Record := #[]
  boxes : Array Value := #[]
  arrays : Array Items := #[]
  cells : Array Cell := #[]
  delegates : Array Delegate := #[]
  trace : List String := []
deriving Inhabited

namespace Store

/-- A bound on the length of a chain of locations in which none comes twice. -/
def size (s : Store) : Nat :=
  s.aggregates.size + s.objects.size + s.boxes.size + s.arrays.size + s.cells.size + s.delegates.size

/-! ### Adding to a store -/

def addAggregate (s : Store) (r : Record) : Loc × Store :=
  (s.aggregates.size, { s with aggregates := s.aggregates.push r })

def addObject (s : Store) (r : Record) : Loc × Store :=
  (s.objects.size, { s with objects := s.objects.push r })

def addBox (s : Store) (v : Value) : Loc × Store :=
  (s.boxes.size, { s with boxes := s.boxes.push v })

def addArray (s : Store) (a : Items) : Loc × Store :=
  (s.arrays.size, { s with arrays := s.arrays.push a })

def addCell (s : Store) (c : Cell) : Loc × Store :=
  (s.cells.size, { s with cells := s.cells.push c })

def addDelegate (s : Store) (d : Delegate) : Loc × Store :=
  (s.delegates.size, { s with delegates := s.delegates.push d })

/-! ### Reading a store -/

def payload? (s : Store) (v : Value) : Option Value :=
  match v.datum with
  | .box loc => s.boxes[loc]?
  | _ => none

def unboxed (s : Store) (v : Value) : Value := (s.payload? v).getD v

/-- The type that calls are dispatched on: of a box, the type of its payload. -/
def dynamicType (s : Store) (v : Value) : Option Ty :=
  match v.datum with
  | .box loc => (s.boxes[loc]?).bind (·.type)
  | .object loc => (s.objects[loc]?).bind (·.type)
  | .aggregate loc => (s.aggregates[loc]?).bind (·.type)
  | _ => v.type

def recordFields? (s : Store) : Datum → Option (Array Value)
  | .aggregate loc => (s.aggregates[loc]?).map (·.fields)
  | .object loc => (s.objects[loc]?).map (·.fields)
  | _ => none

/-- The datum whose field storage a value leads to: boxes are looked into, also those in boxes. -/
def fieldOwner (s : Store) : Nat → Datum → Datum
  | 0, d => d
  | n + 1, .box loc =>
    match s.boxes[loc]? with
    | some v => fieldOwner s n v.datum
    | none => .box loc
  | _ + 1, d => d

def fields (s : Store) (v : Value) : Array Value :=
  (s.recordFields? (s.fieldOwner (s.boxes.size + 1) v.datum)).getD #[]

def items? (s : Store) (v : Value) : Option (Array Value) :=
  match v.datum with
  | .array loc => (s.arrays[loc]?).map (·.items)
  | _ => none

def delegate? (s : Store) (v : Value) : Option Delegate :=
  match v.datum with
  | .delegate loc => s.delegates[loc]?
  | _ => none

def load (s : Store) (cell : Loc) : Value :=
  match s.cells[cell]? with
  | some c => c.value
  | none => {}

/-- Every way down from `a` along `next` ends after less than `n` steps. -/
def descends {α : Type} (next : α → List α) : (n : Nat) → α → Bool
  | 0, _ => false
  | n + 1, a => (next a).all (descends next n)

/-- The fields of a struct, which are values of the store themselves. -/
def inlined (s : Store) (v : Value) : List Value :=
  match v.datum with
  | .aggregate loc => ((s.aggregates[loc]?).map (·.fields.toList)).getD []
  | _ => []

/-- The structs of a value nest less than `n` deep. -/
abbrev nestsAt (s : Store) : (n : Nat) → Value → Bool := descends s.inlined

/-- No struct of a value lies inside itself. The structs on a way down are different ones then, so their
number bounds how deep they nest. -/
def nests (s : Store) (v : Value) : Bool := s.nestsAt (s.aggregates.size + 1) v

/-! ### Changing a store -/

def setFieldOf (s : Store) (d : Datum) (index : Nat) (v : Value) : Store :=
  match d with
  | .aggregate loc =>
    { s with aggregates := s.aggregates.modify loc fun r => { r with fields := r.fields.setIfInBounds index v } }
  | .object loc =>
    { s with objects := s.objects.modify loc fun r => { r with fields := r.fields.setIfInBounds index v } }
  | _ => s

def setField (s : Store) (owner : Value) (index : Nat) (v : Value) : Store :=
  s.setFieldOf (s.fieldOwner (s.boxes.size + 1) owner.datum) index v

def setItem (s : Store) (array : Value) (index : Nat) (v : Value) : Store :=
  match array.datum with
  | .array loc =>
    { s with arrays := s.arrays.modify loc fun a => { a with items := a.items.setIfInBounds index v } }
  | _ => s

def store (s : Store) (cell : Loc) (v : Value) : Store :=
  { s with cells := s.cells.modify cell fun c => { c with value := v } }

def note (s : Store) (line : String) : Store := { s with trace := line :: s.trace }

end Store

end TreeMachine
