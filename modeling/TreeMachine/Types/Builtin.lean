import TreeMachine.Types.Basic

/-!
# The builtin types

The declarations of the types every universe has. They refer to each other, so each is written out
with its tables rather than drafted.
-/

namespace TreeMachine.Builtin

/-! ### Methods of `object` -/

def objectToString : Method where
  owner := .object
  serial := 0
  name := "ToString"
  result := some .string
  isVirtual := true
  slot := some 0
  body := some .objectToString

def objectEquals : Method where
  owner := .object
  serial := 1
  name := "Equals"
  params := [some .object]
  result := some .bool
  isVirtual := true
  slot := some 1
  body := some .objectEquals

def objectHashCode : Method where
  owner := .object
  serial := 2
  name := "GetHashCode"
  result := some .int32
  isVirtual := true
  slot := some 2
  body := some .objectHashCode

def object : TypeDecl where
  name := "object"
  form := .classType
  methods := [objectToString, objectEquals, objectHashCode]
  vtable := [objectToString, objectEquals, objectHashCode]

/-! ### The base of structs and scalars -/

def valueToString : Method := { objectToString with owner := .valueType }

def valueEquals : Method := { objectEquals with owner := .valueType, body := some .valueEquals }

def valueHashCode : Method := { objectHashCode with owner := .valueType, body := some .valueHashCode }

def valueType : TypeDecl where
  name := "ValueType"
  form := .classType
  lineage := [.object]
  methods := [valueToString, valueEquals, valueHashCode]
  vtable := [valueToString, valueEquals, valueHashCode]

/-! ### Interfaces -/

def compareTo : Method where
  owner := .comparable
  serial := 0
  name := "CompareTo"
  params := [some .object]
  result := some .int32

def comparable : TypeDecl where
  name := "IComparable"
  form := .interface
  methods := [compareTo]

def dispose : Method where
  owner := .disposable
  serial := 0
  name := "Dispose"

def disposable : TypeDecl where
  name := "IDisposable"
  form := .interface
  methods := [dispose]

/-! ### Enums and scalars -/

def scalarCompareTo (owner : Ty) : Method :=
  { compareTo with owner := owner, body := some .scalarCompareTo }

def enumBase : TypeDecl where
  name := "Enum"
  form := .classType
  lineage := [.valueType, .object]
  methods := [scalarCompareTo .enumBase]
  vtable := valueType.vtable
  interfaces := [.comparable]
  tables := [(.comparable, [scalarCompareTo .enumBase])]

def scalar (p : Primitive) : TypeDecl where
  name := p.name
  form := .scalar p
  lineage := [.valueType, .object]
  methods := [scalarCompareTo p.type]
  vtable := valueType.vtable
  interfaces := [.comparable]
  tables := [(.comparable, [scalarCompareTo p.type])]

/-! ### References -/

def null : TypeDecl where
  name := "null"
  form := .classType
  lineage := [.object]
  vtable := object.vtable

def stringLength : Method where
  owner := .string
  serial := 0
  name := "get_Length"
  result := some .int32
  body := some .stringLength

def stringEquals : Method :=
  { objectEquals with owner := .string, serial := 1, body := some .valueEquals }

def stringHashCode : Method :=
  { objectHashCode with owner := .string, serial := 2, body := some .valueHashCode }

def stringToUpper : Method where
  owner := .string
  serial := 3
  name := "ToUpper"
  result := some .string
  body := some .stringToUpper

def stringContains : Method where
  owner := .string
  serial := 4
  name := "Contains"
  params := [some .string]
  result := some .bool
  body := some .stringContains

def stringCompareTo : Method where
  owner := .string
  serial := 5
  name := "CompareTo"
  params := [some .object]
  result := some .int32
  body := some .stringCompareTo

def string : TypeDecl where
  name := "string"
  form := .classType
  declaredSealed := true
  lineage := [.object]
  properties :=
    [{ name := "Length", type := some .int32, owner := .string, getter := stringLength, setter := none }]
  methods := [stringLength, stringEquals, stringHashCode, stringToUpper, stringContains, stringCompareTo]
  vtable := [objectToString, stringEquals, stringHashCode]
  interfaces := [.comparable]
  tables := [(.comparable, [stringCompareTo])]

/-- What all array types share. Their names differ, see `Universe.name`. -/
def array : TypeDecl where
  name := "[]"
  form := .array
  declaredSealed := true
  lineage := [.object]
  vtable := object.vtable

end TreeMachine.Builtin
