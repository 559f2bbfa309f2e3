import TreeMachine.Store

/-!
# Equality, identity and hash

`equal` compares scalars and texts by content, structs field by field and boxes by their payload;
everything else by identity. `hash` gives equal values the same number.
-/

namespace TreeMachine

/-- Identity. Texts are compared by content; scalars and structs are never identical. -/
def Value.sameRef (a b : Value) : Bool :=
  match a.datum with
  | .bool _ | .int _ | .float _ | .aggregate _ => false
  | d => d = b.datum

namespace Store

variable (s : Store)

def equalAt : (n : Nat) → Value → Value → Bool
  | 0, _, _ => false
  | n + 1, a, b =>
    let a := s.unboxed a
    let b := s.unboxed b
    match a.datum, b.datum with
    | .bool x, .bool y => a.type = b.type && x == y
    | .int x, .int y => a.type = b.type && x == y
    | .float x, .float y => a.type = b.type && x.same y
    | .aggregate x, .aggregate y =>
      match s.aggregates[x]?, s.aggregates[y]? with
      | some p, some q =>
        p.type = q.type && (p.fields.toList.zip q.fields.toList).all fun (f, g) => equalAt n f g
      | _, _ => false
    | d, e => d = e

def equal (a b : Value) : Bool := s.equalAt (s.aggregates.size + 1) a b

/-! ### Whether comparing ends -/

/-- The elements of a list up to the first without the property `p`, that one included. -/
def through {α : Type} (p : α → Bool) : List α → List α
  | [] => []
  | x :: xs => x :: if p x then through p xs else []

/-- The fields that are compared for two values: those of two structs of one type, from the left, up to
the first that differ. -/
def compared (ab : Value × Value) : List (Value × Value) :=
  match (s.unboxed ab.1).datum, (s.unboxed ab.2).datum with
  | .aggregate x, .aggregate y =>
    match s.aggregates[x]?, s.aggregates[y]? with
    | some p, some q =>
      if p.type = q.type then through (fun (f, g) => s.equal f g) (p.fields.toList.zip q.fields.toList) else []
    | _, _ => []
  | _, _ => []

/-- Comparing two values comes to an end. No two structs are compared within their own comparison then,
so the number of pairs bounds how deep it goes. -/
def compares (a b : Value) : Bool := descends s.compared (s.aggregates.size * s.aggregates.size + 1) (a, b)

/-! ### Hash -/

def hashByte (h : UInt32) (b : UInt8) : UInt32 := (h ^^^ b.toUInt32) * 16777619

def hashStart : UInt32 := 2166136261

def hashBytes (h : UInt32) (bs : List UInt8) : UInt32 := bs.foldl hashByte h

def hashText (h : UInt32) (t : String) : UInt32 := hashBytes h t.toUTF8.data.toList

def wordBytes (w : UInt64) : List UInt8 :=
  (List.range 8).map fun k => (w >>> (8 * k).toUInt64).toUInt8

/-- Takes in a value whose structs nest less than `n` deep: the kind of its datum, then its word, its
text, or the name of its type and its fields. A struct held at no type has no hash. -/
def hashAt (U : Universe) : (n : Nat) → UInt32 → Value → Option UInt32
  | 0, h, _ => some h
  | n + 1, h, v =>
    let h := hashByte h v.datum.tag.toUInt8
    match v.datum with
    | .bool _ | .int _ | .float _ => some (hashBytes h (wordBytes v.datum.bits))
    | .text t => some (hashText h t)
    | .aggregate loc => do
      let name := U.name (← v.type)
      match s.aggregates[loc]? with
      | some r => r.fields.toList.foldlM (fun h f => hashAt U n h f) (hashText h name)
      | none => return h
    | _ => some h

/-- The hash of a value; a box has the hash of its payload. A struct that lies inside itself is hashed like
nothing. -/
def hash (U : Universe) (v : Value) : Option UInt32 :=
  if s.nests (s.unboxed v) then s.hashAt U (s.aggregates.size + 1) hashStart (s.unboxed v) else some hashStart

end Store

end TreeMachine
