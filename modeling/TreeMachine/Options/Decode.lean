import TreeMachine.Options
import TreeMachine.Options.Refusal
import TreeMachine.Yaml.Node

/-!
# Options from a document

The mapping of a document sets options. Keys that are absent or null keep their defaults, unknown keys
are ignored, and no key may come twice. The key `<<` brings in the entries of other mappings, for keys
that are not set already. Reading goes on behind a value of the wrong kind; the document is refused in
the end.
-/

namespace TreeMachine

open Yaml (Node Scalar Document)

namespace Options

inductive Field where
  | inlineCaptures
  | reuseSlots
  | recordDepths
  | verify
  | verbosity
deriving DecidableEq, Repr, Inhabited

namespace Field

def key : Field → String
  | inlineCaptures => "inlineReadOnlyCaptures"
  | reuseSlots => "reuseSlots"
  | recordDepths => "recordStackDepths"
  | verify => "verify"
  | verbosity => "verbosity"

def kind : Field → Kind
  | verbosity => .int
  | _ => .bool

def all : List Field := [inlineCaptures, reuseSlots, recordDepths, verify, verbosity]

def ofKey? (s : String) : Option Field := all.find? (·.key = s)

end Field

/-- A truth value; some words of older versions of the language count as such. -/
def asBool? : Scalar → Option Bool
  | .bool b => some b
  | .text s =>
    if ["y", "Y", "yes", "Yes", "YES", "on", "On", "ON"].contains s then some true
    else if ["n", "N", "no", "No", "NO", "off", "Off", "OFF"].contains s then some false
    else none
  | _ => none

/-- An integer of 64 bits; of other numbers, the integer part. -/
def asInt? : Scalar → Option Int
  | .int n => if n ≤ Int64.maxValue.toInt then some n else none
  | .float w => if w.lessEqual (.ofInt64 Int64.maxValue) then some w.toInt64.toInt else none
  | _ => none

/-- Sets an option; nothing if the value is not of its kind. Null sets nothing. -/
def set? (o : Options) (f : Field) (v : Scalar) : Option Options :=
  match v, f with
  | .null, _ => some o
  | v, .inlineCaptures => (asBool? v).map fun b => { o with inlineCaptures := b }
  | v, .reuseSlots => (asBool? v).map fun b => { o with reuseSlots := b }
  | v, .recordDepths => (asBool? v).map fun b => { o with recordDepths := b }
  | v, .verify => (asBool? v).map fun b => { o with verify := b }
  | v, .verbosity => (asInt? v).map fun n => { o with verbosity := n }

/-! ### Reading -/

structure Decoder where
  options : Options := {}
  refusals : Array Refusal := #[]
  reads : Nat := 0
  aliasReads : Nat := 0
  active : List Nat := []
  /-- The keys that are set already; none unless a mapping is brought into another one. -/
  merged : Option (List Scalar) := none
deriving Inhabited

abbrev Decode := EStateM Stop Decoder

inductive Target where
  | options
  | field (f : Field)
  | name
  | any
  /-- The entries of a mapping that other mappings are brought into; the flag says that its keys are
  all text. -/
  | entries (named : Bool)
deriving DecidableEq, Repr

def Target.kind : Target → Kind
  | field f => f.kind
  | name => .text
  | options | any | entries _ => .options

inductive Found where
  | scalar (v : Scalar)
  | collection
deriving DecidableEq, Repr

namespace Decode

/-- The share of reads through aliases that is too large for a number of reads: above 99 of 100 for
small documents, above 10 of 100 for large ones, and evenly less in between. -/
def exceedsShare (aliasReads reads : Nat) : Bool :=
  let low := 400000
  let high := 4000000
  if reads ≤ low then 99 * reads < 100 * aliasReads
  else if high ≤ reads then 10 * reads < 100 * aliasReads
  else
    let range := high - low
    (99 * range - 89 * (reads - low)) * reads < 100 * range * aliasReads

/-- Counts a node. A document must not grow too much by its aliases. -/
def count : Decode Unit := do
  modify fun d =>
    { d with
      reads := d.reads + 1
      aliasReads := if d.active.isEmpty then d.aliasReads else d.aliasReads + 1 }
  let d ← get
  if 100 < d.aliasReads && 1000 < d.reads && exceedsShare d.aliasReads d.reads then
    throw .manyAliases

def refuse (r : Refusal) : Decode (Option Found) := do
  modify fun d => { d with refusals := d.refusals.push r }
  return none

def refuseKind (t : Target) (n : Node) : Decode (Option Found) :=
  refuse (.wrongKind n.line n.tag n.text t.kind)

/-- Follows an alias, which must not lead to itself. -/
def through {α : Type} (name : String) (number : Nat) (x : Decode α) : Decode α := do
  let active := (← get).active
  if active.contains number then throw (.cycle name)
  modify fun d => { d with active := number :: active }
  let a ← x
  modify fun d => { d with active := active }
  return a

def misfit (tag text : String) : Stop :=
  if tag = "!!binary" then .notBytes
  else
    let found :=
      if text = "<<" then "!!merge" else (Scalar.ofPlain (tag = "!!timestamp") text).tag
    .misfit found text tag

def scalar (t : Target) (n : Node) (v : Scalar) : Decode (Option Found) := do
  match t, v with
  | .any, v => return some (.scalar v)
  | .name, .null | .options, .null => return none
  | .name, .text _ | .name, .bytes _ => return some (.scalar v)
  | .name, _ => return some (.scalar (.text n.text))
  | .field f, v =>
    match (← get).options.set? f v with
    | some o =>
      modify fun d => { d with options := o }
      return some (.scalar v)
    | none => refuseKind t n
  | .options, _ | .entries _, _ => refuseKind t n

variable (doc : Document) (read : Target → Node → Decode (Option Found))

def follow (n : Node) : Node :=
  match n with
  | .reference _ _ _ target => doc.named.getD target n
  | _ => n

def allNamed (entries : List (Node × Node)) : Bool :=
  entries.all fun e => ["!!str", "!!merge"].contains (follow doc e.1).tag

structure Progress where
  merged : Option (List Scalar)
  done : List Field := []
  /-- The value of the last `<<`. -/
  merge : Option Node := none

def value (t : Target) (p : Progress) (key : Found) (e : Node × Node) : Decode Progress := do
  match t, key with
  | .options, .scalar (.text s) =>
    match Field.ofKey? s with
    | none => return p
    | some f =>
      let _ ←
        if p.done.contains f then refuse (.repeatedOption e.1.line s) else read (.field f) e.2
      return { p with done := f :: p.done }
  | .options, _ => return p
  | _, .collection => throw .collectionKey
  | _, .scalar _ =>
    let _ ← read .any e.2
    return p

def entry (t keys : Target) (p : Progress) (e : Node × Node) : Decode Progress := do
  if e.1.isMerge then return { p with merge := some e.2 }
  else
    match ← read keys e.1 with
    | none => return p
    | some key =>
      match p.merged, key with
      | none, _ => value read t p key e
      | some _, .collection => throw .unusableKey
      | some set, .scalar s =>
        if set.any (s.sameKey ·) then return p
        else value read t { p with merged := some (s :: set) } key e

def markKeys (entries : List (Node × Node)) : Decode Unit := do
  modify fun d => { d with merged := some [] }
  entries.forM fun e => do
    match ← read .any e.1 with
    | none => return
    | some .collection => throw .unusableKey
    | some (.scalar s) => modify fun d => { d with merged := d.merged.map (s :: ·) }

def mergeOne (t : Target) (n : Node) : Decode Unit := do
  match follow doc n with
  | .mapping .. => let _ ← read t n
  | _ => throw .notMergeable

def merge (t : Target) (entries : List (Node × Node)) (n : Node) : Decode Unit := do
  let nested := (← get).merged.isSome
  if !nested then markKeys read entries
  match n with
  | .sequence _ _ items => items.forM (mergeOne doc read t)
  | n => mergeOne doc read t n
  if !nested then modify fun d => { d with merged := none }

def mapping (t : Target) (entries : List (Node × Node)) : Decode Unit := do
  let keys :=
    match t with
    | .options | .entries true => .name
    | _ => .any
  let merged := (← get).merged
  modify fun d => { d with merged := none }
  let p ← entries.foldlM (entry read t keys) { merged }
  modify fun d => { d with merged := p.merged }
  match p.merge with
  | none => return
  | some n => merge doc read t entries n

def node : (n : Nat) → Target → Node → Decode (Option Found)
  | 0, _, _ => throw .manyAliases
  | n + 1, t, x => do
    count
    match x with
    | .reference _ name number _ => through name number (node n t (follow doc x))
    | .scalar _ tag text quoted =>
      match Node.resolve? tag text quoted with
      | some v => scalar t x v
      | none => throw (misfit x.tag text)
    | .sequence _ _ items =>
      if t = .any then
        items.forM fun i => do let _ ← node n .any i
        return some .collection
      else refuseKind t x
    | .mapping _ _ entries =>
      let repeated := Node.repeatedKeys entries
      if !repeated.isEmpty then
        repeated.forM fun (k, l) => do let _ ← refuse (.repeatedKey l.line l.text k.line)
        return none
      else
        match t with
        | .field _ | .name => refuseKind t x
        | .any =>
          mapping doc (node n) (.entries (allNamed doc entries)) entries
          return some .collection
        | t =>
          mapping doc (node n) t entries
          return some .collection

end Decode

def ofDocument (doc : Document) : Except Stop (Options × Array Refusal) :=
  -- No alias is active twice, so a path through the nodes is at most this long.
  let depth := (doc.size + 2) * (doc.size + 2)
  match (do Decode.count; Decode.node doc depth .options doc.root : Decode (Option Found)).run {} with
  | .ok _ d => .ok (d.options, d.refusals)
  | .error e _ => .error e

end Options

end TreeMachine
