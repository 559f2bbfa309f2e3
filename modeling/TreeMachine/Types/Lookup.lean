import TreeMachine.Types.Builtin

/-!
# Looking things up in a universe

Names, storage, members and method implementations of types. A type is searched along its *chain*:
the type itself, then its bases, nearest first.
-/

namespace TreeMachine

namespace Universe

variable (U : Universe)

def decl : Ty → TypeDecl
  | .object => Builtin.object
  | .valueType => Builtin.valueType
  | .enumBase => Builtin.enumBase
  | .null => Builtin.null
  | .bool => Builtin.scalar .bool
  | .int32 => Builtin.scalar .int32
  | .int64 => Builtin.scalar .int64
  | .float64 => Builtin.scalar .float64
  | .string => Builtin.string
  | .comparable => Builtin.comparable
  | .disposable => Builtin.disposable
  | .declared i => U.decls.getD i default
  | .array _ => Builtin.array

def name : Ty → String
  | .array e => name e ++ "[]"
  | t => (U.decl t).name

def nameOf : Option Ty → String
  | none => "void"
  | some t => U.name t

def namesOf (ts : List (Option Ty)) : String :=
  ", ".intercalate (ts.map U.nameOf)

def storage (t : Ty) : Storage :=
  match (U.decl t).form with
  | .scalar _ | .enumeration _ _ => .scalar
  | .struct => .aggregate
  | .classType | .array | .delegate _ _ => .reference
  | .interface => .interface

def isValue (t : Ty) : Bool := (U.storage t).isValue

def isInterface (t : Ty) : Bool := U.storage t = .interface

def isAggregate (t : Ty) : Bool := U.storage t = .aggregate

def isScalar (t : Ty) : Bool := U.storage t = .scalar

/-- The representation of a scalar; of an enum, that of its numbers. -/
def primitive? (t : Ty) : Option Primitive :=
  match (U.decl t).form with
  | .scalar p | .enumeration p _ => some p
  | _ => none

def isEnum (t : Ty) : Bool :=
  match (U.decl t).form with
  | .enumeration _ _ => true
  | _ => false

/-- Closed to derivation: declared so, or copied on assignment. -/
def isSealed (t : Ty) : Bool := (U.decl t).declaredSealed || U.isValue t

/-- A number that is not an enum. -/
def isNumeric (t : Ty) : Bool :=
  match (U.decl t).form with
  | .scalar p => p.isNumeric
  | _ => false

def signature? (t : Ty) : Option (List Ty × Option Ty) :=
  match (U.decl t).form with
  | .delegate ps r => some (ps, r)
  | _ => none

def isDelegate (t : Ty) : Bool := (U.signature? t).isSome

/-- The parameter and result types of a delegate type; other types count as a delegate type without
parameters and result. -/
def signature (t : Ty) : List Ty × Option Ty := (U.signature? t).getD ([], none)

/-- The name an enum gives to a number; the empty text if it gives none. -/
def enumName (t : Ty) (n : Int64) : String :=
  match (U.decl t).form with
  | .enumeration _ names => (names.lookup n).getD ""
  | _ => ""

def hasEnumValue (t : Ty) (n : Int64) : Bool :=
  match (U.decl t).form with
  | .enumeration _ names => (names.lookup n).isSome
  | _ => false

def builtin? (s : String) : Option Ty :=
  [.object, .valueType, .enumBase, .null, .bool, .int32, .int64, .float64, .string, .comparable,
    .disposable].find? fun t => U.name t = s

def chain (t : Ty) : List Ty := t :: (U.decl t).lineage

def base? (t : Ty) : Option Ty := (U.decl t).lineage.head?

/-! ### Members -/

def field? (t : Ty) (name : String) : Option Field :=
  (U.chain t).findSome? fun c => (U.decl c).fields.find? (·.name = name)

def property? (t : Ty) (name : String) : Option Property :=
  (U.chain t).findSome? fun c => (U.decl c).properties.find? (·.name = name)

def member? (t : Ty) (name : String) : Option Member :=
  match U.field? t name with
  | some f => some (.field f)
  | none => (U.property? t name).map .property

def fieldCount (t : Ty) : Nat :=
  ((U.chain t).map fun c => (U.decl c).fields.length).foldr (· + ·) 0

/-- The fields of a whole chain in the order of their locations: those of the root come first. -/
def layout (t : Ty) : List Field :=
  (U.chain t).reverse.flatMap fun c => (U.decl c).fields

def constructor? (t : Ty) (arity : Nat) : Option Method :=
  (U.decl t).constructors.find? (·.params.length = arity)

/-! ### Bases and interfaces -/

def isSubclass (t u : Ty) : Bool := (U.decl t).lineage.contains u

/-- The implementations of the methods of interface `i`, declared by `t` or the nearest base that
names `i`. -/
def table? (t i : Ty) : Option (List Method) :=
  (U.chain t).findSome? fun c => (U.decl c).tables.lookup i

def implements (t i : Ty) : Bool :=
  U.isInterface i && (t = i || (U.table? t i).isSome)

def allInterfaces (t : Ty) : List Ty :=
  (U.chain t).flatMap fun c => (U.decl c).interfaces

/-- A value of static type `t` can stand where a `u` is expected as it is: identity or an upcast of
references. -/
def assignable (t u : Ty) : Bool :=
  if t = u then true
  else if U.isValue t then false
  else if t = .null then !U.isValue u
  else if u = .object then true
  else if U.isInterface u then U.implements t u
  else U.isSubclass t u

def assignableOf : Option Ty → Option Ty → Bool
  | some t, some u => U.assignable t u
  | none, none => true
  | _, _ => false

/-! ### Methods -/

def findMethod (ms : List Method) (name : String) (arity : Nat) : Option Method :=
  ms.find? fun m => m.name = name && m.params.length = arity

/-- The method of that name and number of parameters: an own or inherited one; on an interface, one
of `object`; else an implementation in one of the interface tables. -/
def method? (t : Ty) (name : String) (arity : Nat) : Option Method :=
  match (U.chain t).findSome? fun c => findMethod (U.decl c).methods name arity with
  | some m => some m
  | none =>
    if U.isInterface t then findMethod Builtin.object.methods name arity
    else
      (U.allInterfaces t).findSome? fun i =>
        match (U.decl i).methods.findIdx? fun m => m.name = name && m.params.length = arity with
        | some k => (U.table? t i).bind (·[k]?)
        | none => none

def inSlot? (vtable : List Method) (m : Method) : Option Method :=
  m.slot.bind (vtable[·]?)

/-- The implementation of `m` for receivers of dynamic type `t`: the interface table entry for a
method of an interface, the vtable entry for a virtual method, and the method itself otherwise. -/
def resolve (t : Ty) (m : Method) : Option Method :=
  if U.isInterface m.owner && !U.isInterface t then
    match U.table? t m.owner, (U.decl m.owner).methods.findIdx? (· = m) with
    | some table, some k =>
      (table[k]?).map fun found => (inSlot? (U.decl t).vtable found).getD found
    | _, _ => none
  else some ((inSlot? (U.decl t).vtable m).getD m)

/-- `resolve` where the dynamic type may be missing. Only a method that is looked up in no table has
an implementation then; for all others there is no answer at all. -/
def resolveOf (t : Option Ty) (m : Method) : Option (Option Method) :=
  match t with
  | some u => some (U.resolve u m)
  | none => if U.isInterface m.owner || m.slot.isSome then none else some (some m)

def describe (m : Method) : String :=
  let head := s!"{U.name m.owner}.{m.name}({U.namesOf m.params})"
  match m.result with
  | none => head
  | some r => head ++ " " ++ U.name r

end Universe

end TreeMachine
