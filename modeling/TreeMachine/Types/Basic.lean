/-!
# Types and their declarations

A type is a name for a declaration. The builtin types are constructors of `Ty`; the types a host
declares are numbered by the `Universe` that holds their declarations; an array type is determined
by its element type. Two types are the same exactly when their `Ty` is equal, so a type can be
compared without its universe, and its declaration is looked up in one.

`Option Ty` stands where a type may be missing: `none` is void.
-/

namespace TreeMachine

inductive Storage where
  /-- Booleans, numbers and enums: held in place. -/
  | scalar
  /-- Structs: a fixed layout of fields, copied when assigned. -/
  | aggregate
  | reference
  /-- Interfaces: their values are references or boxes. -/
  | interface
deriving DecidableEq, Repr, Inhabited

namespace Storage

def name : Storage → String
  | scalar => "scalar"
  | aggregate => "aggregate"
  | reference => "reference"
  | interface => "interface"

/-- Values of this storage are copied on assignment. -/
def isValue : Storage → Bool
  | scalar | aggregate => true
  | reference | interface => false

def all : List Storage := [scalar, aggregate, reference, interface]

def nameOfNumber (n : Nat) : String :=
  match all[n]? with
  | some s => s.name
  | none => s!"ValueKind({n})"

end Storage

inductive Primitive where
  | bool
  | int32
  | int64
  | float64
deriving DecidableEq, Repr, Inhabited

namespace Primitive

def name : Primitive → String
  | bool => "bool"
  | int32 => "int32"
  | int64 => "int64"
  | float64 => "float64"

def isNumeric : Primitive → Bool
  | bool => false
  | int32 | int64 | float64 => true

/-- Numeric primitives by width: a conversion to a higher rank is a widening. -/
def rank : Primitive → Nat
  | bool => 0
  | int32 => 1
  | int64 => 2
  | float64 => 3

/-- The number that stands for the primitive in code; zero stands for none. -/
def number : Primitive → Nat
  | bool => 1
  | int32 => 2
  | int64 => 3
  | float64 => 4

def ofNumber? : Nat → Option Primitive
  | 1 => some bool
  | 2 => some int32
  | 3 => some int64
  | 4 => some float64
  | _ => none

@[simp] theorem ofNumber?_number (p : Primitive) : ofNumber? p.number = some p := by
  cases p <;> rfl

def nameOfNumber (n : Nat) : String :=
  match ofNumber? n with
  | some p => p.name
  | none => "none"

end Primitive

inductive Ty where
  /-- The root of every reference type. -/
  | object
  /-- The base of structs and scalars; their values box to it. -/
  | valueType
  /-- The base of enums; their values box to it. -/
  | enumBase
  /-- The static type of the null constant. -/
  | null
  | bool
  | int32
  | int64
  | float64
  | string
  | comparable
  | disposable
  | declared (index : Nat)
  | array (elem : Ty)
deriving DecidableEq, Repr, Inhabited

def Ty.elem? : Ty → Option Ty
  | .array e => some e
  | _ => none

def Primitive.type : Primitive → Ty
  | .bool => .bool
  | .int32 => .int32
  | .int64 => .int64
  | .float64 => .float64

/-- What runs when a method is called. Host routines are named by number and looked up in the host
the call is made under, so a declaration is plain data. -/
inductive Body where
  | objectToString
  | objectEquals
  | objectHashCode
  | valueEquals
  | valueHashCode
  | scalarCompareTo
  | stringLength
  | stringToUpper
  | stringContains
  | stringCompareTo
  | readField (index : Nat)
  | writeField (index : Nat)
  | host (routine : Nat)
deriving DecidableEq, Repr

/-- An instance method, static method or constructor. `serial` numbers the methods of one owner in
the order of their declaration, so methods are equal exactly when they are the same method. -/
structure Method where
  owner : Ty
  serial : Nat
  name : String
  params : List (Option Ty) := []
  result : Option Ty := none
  isStatic : Bool := false
  isVirtual : Bool := false
  isConstructor : Bool := false
  slot : Option Nat := none
  /-- `none` for an abstract method. -/
  body : Option Body := none
deriving DecidableEq, Repr

structure Field where
  name : String
  type : Ty
  owner : Ty
  /-- The position of the location in the storage of every type that has the field. -/
  index : Nat
deriving DecidableEq, Repr

/-- A member read and written through methods. -/
structure Property where
  name : String
  type : Option Ty
  owner : Ty
  getter : Method
  /-- `none` for a read-only property. -/
  setter : Option Method
deriving DecidableEq, Repr

inductive Member where
  | field (f : Field)
  | property (p : Property)
deriving DecidableEq, Repr

namespace Member

def name : Member → String
  | field f => f.name
  | property p => p.name

def type : Member → Option Ty
  | field f => some f.type
  | property p => p.type

def owner : Member → Ty
  | field f => f.owner
  | property p => p.owner

end Member

inductive Form where
  | scalar (p : Primitive)
  /-- An enum over an integral primitive, with the name of each named number. -/
  | enumeration (p : Primitive) (names : List (Int64 × String))
  | struct
  | classType
  | interface
  | array
  | delegate (params : List Ty) (result : Option Ty)
deriving DecidableEq, Repr, Inhabited

/-- The declaration of a type: its own members, and the tables that calls go through. -/
structure TypeDecl where
  name : String
  form : Form
  declaredSealed : Bool := false
  /-- The base types, nearest first. -/
  lineage : List Ty := []
  fields : List Field := []
  properties : List Property := []
  methods : List Method := []
  constructors : List Method := []
  /-- The implementation at each virtual slot. -/
  vtable : List Method := []
  /-- The interfaces the declaration names, in order. -/
  interfaces : List Ty := []
  /-- For each of them, the implementation of each of its methods. -/
  tables : List (Ty × List Method) := []
deriving Repr, Inhabited

/-- The declared types. Declaring a type only adds to a universe. -/
structure Universe where
  decls : Array TypeDecl := #[]
  /-- The delegate type that answers for each signature text, latest first. -/
  signatures : List (String × Nat) := []
deriving Repr, Inhabited

end TreeMachine
