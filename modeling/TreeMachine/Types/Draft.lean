import TreeMachine.Types.Lookup

/-!
# Declaring types

A host describes a new type by a `TypeSpec`: what it is, and the steps that give it members.
`Universe.declare` carries the steps out on a `Draft`, lays out the vtable and the interface tables,
and adds the finished declaration to the universe. The first step that cannot be carried out decides
the error. Enums, delegate types and array types have no steps.
-/

namespace TreeMachine

inductive DraftKind where
  | struct
  /-- A class below `base`; without one, below `object`. -/
  | classType (base : Option Ty)
  | interface
deriving DecidableEq, Repr

inductive DraftStep where
  | close
  | field (name : String) (type : Option Ty)
  /-- A property over two routines. Without a setter it is read-only. -/
  | property (name : String) (type : Option Ty) (getter setter : Option Nat)
  /-- A property over a hidden field of its own. -/
  | autoProperty (name : String) (type : Option Ty)
  | abstractProperty (name : String) (type : Option Ty) (writable : Bool)
  | method (name : String) (params : List (Option Ty)) (result : Option Ty) (body : Option Nat)
  | staticMethod (name : String) (params : List (Option Ty)) (result : Option Ty) (body : Option Nat)
  | virtualMethod (name : String) (params : List (Option Ty)) (result : Option Ty) (body : Option Nat)
  /-- A new implementation of an inherited virtual method with the same name and parameters. -/
  | overrideMethod (name : String) (params : List (Option Ty)) (body : Option Nat)
  | constructor (params : List (Option Ty)) (body : Option Nat)
  | implements (interfaces : List (Option Ty))
deriving DecidableEq, Repr

structure TypeSpec where
  name : String
  kind : DraftKind
  steps : List DraftStep
deriving Repr

inductive DeclareError where
  | badBase (name : String) (base : Ty)
  | fieldOnInterface (field : String)
  | untypedField (field : String)
  | duplicateField (field : String)
  | abstractOutsideInterface (property : String)
  | virtualOn (method : String) (storage : Storage)
  | noBody (method : String)
  | virtualOnInterface (method : String)
  | duplicateMethod (method : String) (arity : Nat)
  | constructorOnInterface
  | duplicateConstructor (arity : Nat)
  | notInterface (type : Option Ty)
  | nothingToOverride (method : String) (arity : Nat)
  | missingMethod (method : Method)
  | badUnderlying (type : Option Ty)
  | sharedEnumValue (first second : String) (value : Int64)
deriving DecidableEq, Repr

namespace DeclareError

def reason (U : Universe) : DeclareError → String
  | badBase name base => s!"cannot derive {name} from {U.name base}"
  | fieldOnInterface f => s!"interfaces cannot declare field {f}"
  | untypedField f => s!"field {f} has no type"
  | duplicateField f => s!"duplicate field {f}"
  | abstractOutsideInterface p => s!"abstract property {p} outside an interface"
  | virtualOn m s => s!"virtual method {m} on {s.name} type"
  | noBody m => s!"method {m} has no implementation"
  | virtualOnInterface m => s!"interface method {m} cannot be virtual"
  | duplicateMethod m n => s!"duplicate method {m}/{n}"
  | constructorOnInterface => "interfaces have no constructors"
  | duplicateConstructor n => s!"duplicate constructor of arity {n}"
  | notInterface t => s!"{U.nameOf t} is not an interface"
  | nothingToOverride m n => s!"no virtual {m}/{n} to override"
  | missingMethod m => s!"missing {U.describe m} required by {U.name m.owner}"
  | badUnderlying t => s!"underlying type must be int32 or int64, got {U.nameOf t}"
  | sharedEnumValue a b v => s!"{a} and {b} share value {v.toInt}"

def isEnumError : DeclareError → Bool
  | badUnderlying _ | sharedEnumValue _ _ _ => true
  | _ => false

def message (U : Universe) (name : String) (e : DeclareError) : String :=
  (if e.isEnumError then "enum " else "type ") ++ name ++ ": " ++ e.reason U

end DeclareError

/-! ### Drafts -/

inductive Dispatch where
  | plain
  | newSlot
  | sameSlot
deriving DecidableEq, Repr

/-- A type under construction. Methods wait in `pending` until the vtable is laid out; accessors of
properties join the declaration at once. -/
structure Draft where
  self : Ty
  decl : TypeDecl
  pending : List (Dispatch × Method) := []
  serial : Nat := 0
deriving Repr

namespace Draft

variable (U : Universe)

def storage (d : Draft) : Storage :=
  match d.decl.form with
  | .interface => .interface
  | .struct => .aggregate
  | _ => .reference

def field? (d : Draft) (name : String) : Option Field :=
  match d.decl.fields.find? (·.name = name) with
  | some f => some f
  | none => d.decl.lineage.findSome? fun c => (U.decl c).fields.find? (·.name = name)

def nextIndex (d : Draft) : Nat :=
  (d.decl.lineage.map fun c => (U.decl c).fields.length).foldr (· + ·) d.decl.fields.length

/-- Adds a field of any type, also of the type that is being declared. -/
def addField (d : Draft) (name : String) (type : Option Ty) : Except DeclareError Draft :=
  if d.storage = .interface then .error (.fieldOnInterface name)
  else
    match type with
    | none => .error (.untypedField name)
    | some t =>
      if (d.field? U name).isSome then .error (.duplicateField name)
      else
        let f : Field := { name := name, type := t, owner := d.self, index := d.nextIndex U }
        .ok { d with decl := { d.decl with fields := d.decl.fields ++ [f] } }

def addProperty (d : Draft) (name : String) (type : Option Ty) (getter : Option Body)
    (setter : Option (Option Body)) : Draft :=
  let get : Method :=
    { owner := d.self, serial := d.serial, name := "get_" ++ name, result := type, body := getter }
  let set : Option Method := setter.map fun body =>
    { owner := d.self, serial := d.serial + 1, name := "set_" ++ name, params := [type], body := body }
  let p : Property := { name := name, type := type, owner := d.self, getter := get, setter := set }
  { d with
    serial := d.serial + 2
    decl := { d.decl with
      methods := d.decl.methods ++ get :: set.toList
      properties := d.decl.properties ++ [p] } }

def addMethod (d : Draft) (dispatch : Dispatch) (m : Method) : Except DeclareError Draft :=
  if m.body.isNone && d.storage ≠ .interface then .error (.noBody m.name)
  else if d.storage = .interface && dispatch ≠ .plain then .error (.virtualOnInterface m.name)
  else if d.pending.any fun (_, p) => p.name = m.name && p.params.length = m.params.length then
    .error (.duplicateMethod m.name m.params.length)
  else .ok { d with serial := d.serial + 1, pending := d.pending ++ [(dispatch, m)] }

def addConstructor (d : Draft) (params : List (Option Ty)) (body : Option Body) : Except DeclareError Draft :=
  if d.storage = .interface then .error .constructorOnInterface
  else if d.decl.constructors.any (·.params.length = params.length) then
    .error (.duplicateConstructor params.length)
  else
    let m : Method :=
      { owner := d.self, serial := d.serial, name := ".ctor", params := params, isConstructor := true,
        body := body }
    .ok { d with
      serial := d.serial + 1
      decl := { d.decl with constructors := d.decl.constructors ++ [m] } }

def addInterface (d : Draft) : Option Ty → Except DeclareError Draft
  | some i =>
    if U.isInterface i then
      .ok { d with decl := { d.decl with interfaces := d.decl.interfaces ++ [i] } }
    else .error (.notInterface (some i))
  | none => .error (.notInterface none)

def step (d : Draft) : DraftStep → Except DeclareError Draft
  | .close => .ok { d with decl := { d.decl with declaredSealed := true } }
  | .field name type => d.addField U name type
  | .property name type getter setter =>
    .ok (d.addProperty name type (getter.map .host) (setter.map fun r => some (.host r)))
  | .autoProperty name type => do
    let index := d.nextIndex U
    let d ← d.addField U ("<" ++ name ++ ">") type
    return d.addProperty name type (some (.readField index)) (some (some (.writeField index)))
  | .abstractProperty name type writable =>
    if d.storage = .interface then
      .ok (d.addProperty name type none (if writable then some none else none))
    else .error (.abstractOutsideInterface name)
  | .method name params result body =>
    d.addMethod .plain
      { owner := d.self, serial := d.serial, name := name, params := params, result := result,
        body := body.map .host }
  | .staticMethod name params result body =>
    d.addMethod .plain
      { owner := d.self, serial := d.serial, name := name, params := params, result := result,
        isStatic := true, body := body.map .host }
  | .virtualMethod name params result body =>
    if d.storage = .reference then
      d.addMethod .newSlot
        { owner := d.self, serial := d.serial, name := name, params := params, result := result,
          isVirtual := true, body := body.map .host }
    else .error (.virtualOn name d.storage)
  | .overrideMethod name params body =>
    d.addMethod .sameSlot
      { owner := d.self, serial := d.serial, name := name, params := params, isVirtual := true,
        body := body.map .host }
  | .constructor params body => d.addConstructor params (body.map .host)
  | .implements interfaces => interfaces.foldlM (fun d i => d.addInterface U i) d

/-! ### Layout of the tables -/

/-- Places one method: a new slot is appended to the vtable, an override replaces the first entry
with its name and parameters and takes over that entry's result. -/
def place (vtable : List Method) : Dispatch × Method → Except DeclareError (List Method × Method)
  | (.plain, m) => .ok (vtable, m)
  | (.newSlot, m) =>
    let m := { m with slot := some vtable.length }
    .ok (vtable ++ [m], m)
  | (.sameSlot, m) =>
    match vtable.findIdx? fun v => v.name = m.name && v.params = m.params with
    | none => .error (.nothingToOverride m.name m.params.length)
    | some i =>
      let m := { m with slot := some i, result := (vtable[i]?).bind (·.result) }
      .ok (vtable.set i m, m)

def placeAll (vtable : List Method) :
    List (Dispatch × Method) → Except DeclareError (List Method × List Method)
  | [] => .ok (vtable, [])
  | p :: ps => do
    let (vtable, m) ← place vtable p
    let (vtable, ms) ← placeAll vtable ps
    return (vtable, m :: ms)

/-- The implementation of interface method `im` among `candidates`, the methods of a chain from the
drafted type upward. -/
def implementation? (vtable candidates : List Method) (im : Method) : Option Method :=
  (candidates.find? fun m =>
    !m.isStatic && m.name = im.name && m.params = im.params && m.result = im.result).map fun m =>
      (Universe.inSlot? vtable m).getD m

def tableFor (vtable candidates : List Method) (i : Ty) : Except DeclareError (Ty × List Method) := do
  let ms ← (U.decl i).methods.mapM fun im =>
    match implementation? vtable candidates im with
    | some m => .ok m
    | none => .error (.missingMethod im)
  return (i, ms)

def finish (d : Draft) : Except DeclareError TypeDecl := do
  let inherited := (d.decl.lineage.head?.map fun b => (U.decl b).vtable).getD []
  let (vtable, placed) ← placeAll inherited d.pending
  let methods := d.decl.methods ++ placed
  let candidates := methods ++ d.decl.lineage.flatMap fun c => (U.decl c).methods
  let tables ← d.decl.interfaces.mapM (tableFor U vtable candidates)
  return { d.decl with methods := methods, vtable := vtable, tables := tables }

def start (self : Ty) (name : String) : DraftKind → Except DeclareError Draft
  | .struct =>
    .ok { self := self, decl := { name := name, form := .struct, lineage := [.valueType, .object] } }
  | .interface => .ok { self := self, decl := { name := name, form := .interface } }
  | .classType base =>
    let b := base.getD .object
    if U.storage b ≠ .reference || (U.decl b).declaredSealed then .error (.badBase name b)
    else .ok { self := self, decl := { name := name, form := .classType, lineage := U.chain b } }

end Draft

/-! ### Adding to a universe -/

namespace Universe

variable (U : Universe)

def next : Ty := .declared U.decls.size

def add (d : TypeDecl) : Ty × Universe := (U.next, { U with decls := U.decls.push d })

/-- Declares a type as it is when it has been built; before that it is not part of the universe. -/
def declare (spec : TypeSpec) : Except DeclareError (Ty × Universe) := do
  let d ← Draft.start U U.next spec.name spec.kind
  let d ← spec.steps.foldlM (fun d s => d.step U s) d
  return U.add (← d.finish U)

/-- A table of names in which a later entry for a name replaces the earlier one. -/
def lastEntries : List (String × Int64) → List (String × Int64)
  | [] => []
  | e :: es => if es.any (·.1 = e.1) then lastEntries es else e :: lastEntries es

def enumNames : List (String × Int64) → Except DeclareError (List (Int64 × String))
  | [] => .ok []
  | (n, v) :: es => do
    let names ← enumNames es
    match names.lookup v with
    | some other => .error (.sharedEnumValue other n v)
    | none => return (v, n) :: names

def declareEnum (name : String) (underlying : Option Ty) (values : List (String × Int64)) :
    Except DeclareError (Ty × Universe) :=
  match underlying.map fun t => (U.decl t).form with
  | some (.scalar .int32) => declareOver .int32
  | some (.scalar .int64) => declareOver .int64
  | _ => .error (.badUnderlying underlying)
where
  declareOver (p : Primitive) : Except DeclareError (Ty × Universe) := do
    let names ← enumNames (lastEntries values)
    return U.add
      { name := name
        form := .enumeration p names
        lineage := [.enumBase, .valueType, .object]
        vtable := Builtin.enumBase.vtable }

/-- The text of a delegate signature, which is also the name of the delegate type. -/
def signatureText (params : List Ty) (result : Option Ty) : String :=
  let head := "func(" ++ ", ".intercalate (params.map U.name) ++ ")"
  match result with
  | none => head
  | some r => head ++ " " ++ U.name r

/-- The delegate type for a signature. One type answers for each signature text: it is used again
when its parameter and result types are the ones asked for, and is replaced by a new type when other
types with the same names are asked for. -/
def delegate (params : List Ty) (result : Option Ty) : Ty × Universe :=
  let text := U.signatureText params result
  match U.signatures.lookup text with
  | some i =>
    if U.signature? (.declared i) = some (params, result) then (.declared i, U) else fresh text
  | none => fresh text
where
  fresh (text : String) : Ty × Universe :=
    (U.next,
      { decls := U.decls.push
          { name := text
            form := .delegate params result
            declaredSealed := true
            lineage := [.object]
            vtable := Builtin.object.vtable }
        signatures := (text, U.decls.size) :: U.signatures })

end Universe

end TreeMachine
