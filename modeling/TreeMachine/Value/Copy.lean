import TreeMachine.Store

/-!
# Making and copying values

Zero values, fresh storage, boxes and copies. Copying a value copies the storage of structs, also of
those nested in their fields, and shares everything else.
-/

namespace TreeMachine.Store

/-- Makes the values of a list of fields, each with `make`, from the left. -/
def makeAll {α : Type} (make : α → Store → Value × Store) (xs : List α) (s : Store) : Array Value × Store :=
  xs.foldl (fun (vs, s) x => let (v, s) := make x s; (vs.push v, s)) (#[], s)

/-! ### Zero values -/

def scalarZero (U : Universe) (t : Ty) : Value :=
  match U.primitive? t with
  | some .bool => ⟨some t, .bool false⟩
  | some .float64 => ⟨some t, .float 0⟩
  | _ => ⟨some t, .int 0⟩

def zeroAt (U : Universe) : (n : Nat) → Ty → Store → Value × Store
  | 0, t, s => (.nilOf t, s)
  | n + 1, t, s =>
    match U.storage t with
    | .scalar => (scalarZero U t, s)
    | .aggregate =>
      let (fields, s) := makeAll (fun (f : Field) s => zeroAt U n f.type s) (U.decl t).fields s
      let (loc, s) := s.addAggregate ⟨t, fields⟩
      (⟨some t, .aggregate loc⟩, s)
    | .reference | .interface => (.nilOf t, s)

/-- The value of storage that was never written: zero scalars, a struct of zeros, a null reference.
Where the fields of every struct have types declared before it, the number of declarations bounds how
deep structs nest; declarations do not see to that. -/
def zero (U : Universe) (t : Ty) (s : Store) : Value × Store := zeroAt U (U.decls.size + 1) t s

def zeroOf (U : Universe) : Option Ty → Store → Value × Store
  | some t, s => zero U t s
  | none, s => (.nil, s)

/-- Fresh storage with the zeros of the fields that the type itself declares. -/
def newAggregate (U : Universe) (t : Ty) (s : Store) : Value × Store :=
  let (fields, s) := makeAll (fun (f : Field) s => zero U f.type s) (U.decl t).fields s
  let (loc, s) := s.addAggregate ⟨t, fields⟩
  (⟨some t, .aggregate loc⟩, s)

/-- A fresh instance with the zeros of all its fields, inherited ones included. -/
def newObject (U : Universe) (t : Option Ty) (s : Store) : Value × Store :=
  let (fields, s) :=
    makeAll (fun (f : Field) s => zero U f.type s) ((t.map U.layout).getD []) s
  let (loc, s) := s.addObject ⟨t, fields⟩
  (⟨t, .object loc⟩, s)

def newArrayOf (elem : Ty) (items : Array Value) (s : Store) : Value × Store :=
  let (loc, s) := s.addArray ⟨elem, items⟩
  (⟨some (.array elem), .array loc⟩, s)

def newArray (U : Universe) (elem : Ty) (n : Nat) (s : Store) : Value × Store :=
  let (items, s) := makeAll (fun _ s => zero U elem s) (List.replicate n ()) s
  newArrayOf elem items s

/-! ### Copies -/

/-- `clone` for structs that nest less than `n` deep in `source`, the store as it was when copying began. -/
def cloneAt (source : Store) : (n : Nat) → Value → Store → Value × Store
  | 0, v, s => (v, s)
  | n + 1, v, s =>
    match v.datum with
    | .aggregate loc =>
      match source.aggregates[loc]? with
      | some r =>
        let (fields, s) := makeAll (fun f s => cloneAt source n f s) r.fields.toList s
        let (copy, s) := s.addAggregate ⟨r.type, fields⟩
        (⟨v.type, .aggregate copy⟩, s)
      | none => (v, s)
    | _ => (v, s)

/-- A copy of a struct; every other value itself. A struct that lies inside itself has no copy. -/
def clone (v : Value) (s : Store) : Value × Store :=
  if s.nests v then cloneAt s (s.aggregates.size + 1) v s else (v, s)

def cloneAll (vs : List Value) (s : Store) : List Value × Store :=
  let (out, s) := makeAll clone vs s
  (out.toList, s)

/-- A box around a value, which gives up its storage to the box. -/
def wrap (v : Value) (s : Store) : Value × Store :=
  let (loc, s) := s.addBox v
  (⟨some .object, .box loc⟩, s)

def box (v : Value) (s : Store) : Value × Store :=
  let (v, s) := clone v s
  wrap v s

/-- A fresh cell with a copy of a value. The null constant gives a cell of a value type its zero. -/
def newCell (U : Universe) (t : Option Ty) (v : Value) (s : Store) : Loc × Store :=
  let (v, s) :=
    match t with
    | some u => if v = .nil && U.isValue u then zero U u s else (v, s)
    | none => (v, s)
  let (v, s) := clone v s
  s.addCell ⟨t, v⟩

/-! ### Fields by name -/

def record? (s : Store) (v : Value) : Option Record :=
  match v.datum with
  | .aggregate loc => s.aggregates[loc]?
  | .object loc => s.objects[loc]?
  | _ => none

/-- Reads a field by name: null if the type has no such field. There is no answer for a value without
field storage, or where the storage does not reach the position of the field. -/
def getNamed (U : Universe) (s : Store) (v : Value) (name : String) : Option Value := do
  let r ← s.record? v
  match r.type.bind (U.field? · name) with
  | some f => r.fields[f.index]?
  | none => return .nil

/-- Writes a copy of a value to a field by name; does nothing if the type has no such field. Fails
where `getNamed` does. -/
def setNamed (U : Universe) (owner : Value) (name : String) (v : Value) (s : Store) :
    Option Store := do
  let r ← s.record? owner
  match r.type.bind (U.field? · name) with
  | some f =>
    let (v, s) := clone v s
    if f.index < r.fields.size then return s.setFieldOf owner.datum f.index v else none
  | none => return s

end TreeMachine.Store
