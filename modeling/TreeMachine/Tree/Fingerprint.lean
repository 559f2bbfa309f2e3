import TreeMachine.Value.Equality

/-!
# Fingerprints

The fingerprint of a tree and a call shape is their encoding as bytes. Variables are numbered by their
first appearance, so trees that differ only in the identity of their variables have one
fingerprint; variables of the host and constants in a store contribute their identity.
-/

namespace TreeMachine

def Ty.number : Ty → Nat
  | .object => 1
  | .valueType => 3
  | .enumBase => 5
  | .null => 7
  | .bool => 9
  | .int32 => 11
  | .int64 => 13
  | .float64 => 15
  | .string => 17
  | .comparable => 19
  | .disposable => 21
  | .declared i => 2 * (i + 11) + 1
  | .array e => 2 * e.number

/-- Bytes under construction, with the variables numbered so far, in order. -/
structure Encoding where
  bytes : Array UInt8 := #[]
  vars : Array Nat := #[]
deriving DecidableEq, Repr, Inhabited

namespace Encoding

def byte (e : Encoding) (b : UInt8) : Encoding := { e with bytes := e.bytes.push b }

/-- Seven bits a byte, lowest first; all bytes but the last have the high bit set. -/
def natBytes (n : Nat) : List UInt8 :=
  if n < 128 then [UInt8.ofNat n]
  else UInt8.ofNat (n % 128 + 128) :: natBytes (n / 128)

def nat (e : Encoding) (n : Nat) : Encoding := { e with bytes := e.bytes ++ natBytes n }

def word (e : Encoding) (w : UInt64) : Encoding := { e with bytes := e.bytes ++ Store.wordBytes w }

def text (e : Encoding) (s : String) : Encoding :=
  let e := e.nat s.utf8ByteSize
  { e with bytes := e.bytes ++ s.toUTF8.data }

def type (e : Encoding) (t : Option Ty) : Encoding := e.nat ((t.map Ty.number).getD 0)

def list {α : Type} (f : Encoding → α → Encoding) (e : Encoding) (xs : List α) : Encoding :=
  xs.foldl f (e.nat xs.length)

/-- A method is told by its owner, name and parameter types. -/
def method (e : Encoding) : Option Method → Encoding
  | none => e.nat 0
  | some m => list type ((e.type m.owner).text m.name) m.params

def member (e : Encoding) (m : Member) : Encoding := (e.type m.owner).text m.name

/-- The number of a variable, which is a new one at its first appearance. -/
def var (e : Encoding) (v : Var) : Encoding :=
  match e.vars.findIdx? (· = v.id) with
  | some i => e.nat i
  | none => { e with vars := e.vars.push v.id }.nat e.vars.size

def declared (e : Encoding) (v : Var) : Encoding := (e.var v).type v.type

def location : Datum → Nat
  | .object loc | .box loc | .array loc | .delegate loc | .cell loc => loc
  | _ => 0

def valueAt (s : Store) : (n : Nat) → Encoding → Value → Encoding
  | 0, e, _ => e
  | n + 1, e, v =>
    let e := (e.byte v.datum.tag.toUInt8).type v.type
    match v.datum with
    | .null => e
    | .bool _ | .int _ => e.word v.datum.bits
    | .float w => e.word (if w.isNaN then Binary64.nan else w)
    | .text t => e.text t
    | .aggregate _ => (s.fields v).foldl (fun e f => valueAt s n e f) e
    | d => e.word (UInt64.ofNat (location d))

/-- A constant; all NaNs are one constant. -/
def value (s : Store) (e : Encoding) (v : Value) : Encoding := e.valueAt s (s.aggregates.size + 1) v

/-- What tells a node apart from other nodes of its kind and type, its parts aside. -/
def label (s : Store) (e : Encoding) : Expr → Encoding
  | .constant v _ => e.value s v
  | .var v => e.var v
  | .member _ m => e.member m
  | .call _ m _ => (e.method m).byte 1
  | .callStatic m _ => (e.method m).byte 0
  | .new _ c _ => e.method c
  | .init _ _ _ members _ => list member e members
  | .convert _ m _ => e.method m
  | .lambda _ _ params _ _ _ => list declared e params
  | .hostVar _ cell _ => e.word (UInt64.ofNat cell)
  | .binary op _ _ m _ => (e.byte op.number.toUInt8).method m
  | .unary op _ => e.byte op.number.toUInt8
  | .block _ vars es => (list declared e vars).nat es.length
  | .newArray t _ => (e.type t).byte 0
  | .arrayOf t items => ((e.type t).byte 1).nat items.length
  | .cond _ _ _ | .assign _ _ | .apply _ _ _ | .default _ | .index _ _ | .length _ | .absent => e

def head (s : Store) (e : Encoding) (x : Expr) : Encoding :=
  ((e.byte x.kind.number.toUInt8).type x.type).label s x

mutual

/-- A tree: each node with the number of its parts, then the parts. -/
def tree (s : Store) : Encoding → Expr → Encoding
  | e, x@(.constant _ _) | e, x@(.var _) | e, x@(.hostVar _ _ _) | e, x@(.default _) =>
    (e.head s x).nat 0
  | e, x@(.member o _) => tree s ((e.head s x).nat 1) o
  | e, x@(.call o _ args) => trees s (tree s ((e.head s x).nat (args.length + 1)) o) args
  | e, x@(.callStatic _ args) => trees s ((e.head s x).nat args.length) args
  | e, x@(.new _ _ args) => trees s ((e.head s x).nat args.length) args
  | e, x@(.init t c args _ values) =>
    let e := (e.head s x).nat (values.length + 1)
    trees s (trees s ((e.head s (.new t c args)).nat args.length) args) values
  | e, x@(.convert o _ _) => tree s ((e.head s x).nat 1) o
  | e, x@(.lambda _ _ _ body _ _) => tree s ((e.head s x).nat 1) body
  | e, x@(.cond c a b) => tree s (tree s (tree s ((e.head s x).nat 3) c) a) b
  | e, x@(.binary _ l r _ _) => tree s (tree s ((e.head s x).nat 2) l) r
  | e, x@(.unary _ o) => tree s ((e.head s x).nat 1) o
  | e, x@(.assign target value) => tree s (tree s ((e.head s x).nat 2) target) value
  | e, x@(.block _ _ es) => trees s ((e.head s x).nat es.length) es
  | e, x@(.apply f args _) => trees s (tree s ((e.head s x).nat (args.length + 1)) f) args
  | e, x@(.newArray _ n) => tree s ((e.head s x).nat 1) n
  | e, x@(.arrayOf _ items) => trees s ((e.head s x).nat items.length) items
  | e, x@(.index a i) => tree s (tree s ((e.head s x).nat 2) a) i
  | e, x@(.length a) => tree s ((e.head s x).nat 1) a
  | e, .absent => e

def trees (s : Store) : Encoding → List Expr → Encoding
  | e, [] => e
  | e, x :: xs => trees s (tree s e x) xs

end

end Encoding

abbrev Fingerprint := Array UInt8

def Fingerprint.ofTree (s : Store) (root : Expr) (shape : Shape) : Fingerprint :=
  let e := Encoding.list Encoding.type {} shape.params
  ((e.type shape.result).tree s root).bytes

end TreeMachine
