import TreeMachine.Number.Binary64
import TreeMachine.Number.Wrap
import TreeMachine.Types.Lookup

/-!
# Values

A value is a datum with the type it is held at. Scalars and text are held in the datum itself;
everything else is a location in a store. A struct value is the location of its storage: passing
the value on does not copy the storage.
-/

namespace TreeMachine

abbrev Loc := Nat

inductive Datum where
  | null
  | bool (b : Bool)
  | int (n : Int64)
  | float (w : Binary64)
  | text (s : String)
  | aggregate (loc : Loc)
  | object (loc : Loc)
  /-- A scalar or struct seen as a reference. -/
  | box (loc : Loc)
  | array (loc : Loc)
  | delegate (loc : Loc)
  /-- A variable shared between its owner and closures. -/
  | cell (loc : Loc)
deriving DecidableEq, Repr, Inhabited

namespace Datum

def tag : Datum → Nat
  | null => 0
  | bool _ => 1
  | int _ => 2
  | float _ => 3
  | text _ => 4
  | aggregate _ => 5
  | object _ => 6
  | box _ => 7
  | array _ => 8
  | delegate _ => 9
  | cell _ => 10

def tagNames : List String :=
  ["nil", "bool", "int", "float", "string", "aggregate", "object", "box", "array", "func", "cell"]

def nameOfTag (n : Nat) : String := tagNames.getD n s!"Tag({n})"

def tagName (d : Datum) : String := nameOfTag d.tag

def isRef : Datum → Bool
  | null | bool _ | int _ | float _ | text _ => false
  | aggregate _ | object _ | box _ | array _ | delegate _ | cell _ => true

/-- Objects, arrays and delegates are told apart by where they lie. -/
def hasIdentity : Datum → Bool
  | object _ | array _ | delegate _ => true
  | _ => false

def bits : Datum → UInt64
  | bool b => if b then 1 else 0
  | int n => n.toUInt64
  | float w => w
  | _ => 0

def str : Datum → String
  | text s => s
  | _ => ""

end Datum

/-- A value at a type. The type is missing from the content of storage that was never written. -/
structure Value where
  type : Option Ty := none
  datum : Datum := .null
deriving DecidableEq, Repr, Inhabited

namespace Value

def nil : Value := ⟨some .null, .null⟩

def nilOf (t : Option Ty) : Value := ⟨t, .null⟩

def ofBool (b : Bool) : Value := ⟨some .bool, .bool b⟩

def ofInt32 (n : Int64) : Value := ⟨some .int32, .int (wrap32 n)⟩

def ofInt64 (n : Int64) : Value := ⟨some .int64, .int n⟩

def ofFloat (w : Binary64) : Value := ⟨some .float64, .float w⟩

def ofString (s : String) : Value := ⟨some .string, .text s⟩

def integral (U : Universe) (t : Ty) (n : Int64) : Value :=
  ⟨some t, .int (wrapTo (U.primitive? t) n)⟩

def isNil (v : Value) : Bool := v.datum = .null

def asBool (v : Value) : Bool := v.datum.bits != 0

/-- The word read as an integer of the width of the value's type. -/
def asInt (U : Universe) (v : Value) : Int64 :=
  wrapTo (v.type.bind U.primitive?) v.datum.bits.toInt64

def asFloat (v : Value) : Binary64 := v.datum.bits

def str (v : Value) : String := v.datum.str

def cell? (v : Value) : Option Loc :=
  match v.datum with
  | .cell loc => some loc
  | _ => none

end Value

end TreeMachine
