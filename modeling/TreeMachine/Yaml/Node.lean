import TreeMachine.Yaml.Event
import TreeMachine.Yaml.Scalar

/-!
# Nodes

The tree of the first document of a text; what follows the document is not read. An alias stays a
reference to the node with its name, which may even contain it.
-/

namespace TreeMachine.Yaml

/-- A node, with the line where it starts. Tags are in their short form. -/
inductive Node where
  | scalar (line : Nat) (tag : Option String) (text : String) (quoted : Bool)
  | sequence (line : Nat) (tag : Option String) (items : List Node)
  | mapping (line : Nat) (tag : Option String) (entries : List (Node × Node))
  /-- A reference to a node with a name. Each reference of a document has a number of its own. -/
  | reference (line : Nat) (name : String) (number target : Nat)
deriving Inhabited

structure Document where
  root : Node
  named : Array Node := #[]
  size : Nat := 1
deriving Inhabited

namespace Node

def properTag (t : Option String) : Option String :=
  (t.filter fun s => s ≠ "" && s ≠ "!").map Scalar.shortTag

def resolve? (tag : Option String) (text : String) (quoted : Bool) : Option Scalar :=
  match tag with
  | some t => Scalar.withTag? t text
  | none => some (if quoted || text = "<<" then .text text else Scalar.ofPlain true text)

def line : Node → Nat
  | scalar n .. | sequence n .. | mapping n .. | reference n .. => n

def text : Node → String
  | scalar _ _ s _ | reference _ s _ _ => s
  | sequence .. | mapping .. => ""

def tag : Node → String
  | scalar _ (some t) _ _ | sequence _ (some t) _ | mapping _ (some t) _ => t
  | scalar _ none text quoted =>
    if quoted then "!!str" else if text = "<<" then "!!merge" else (Scalar.ofPlain true text).tag
  | sequence _ none _ => "!!seq"
  | mapping _ none _ => "!!map"
  | reference .. => ""

def isMerge (n : Node) : Bool :=
  match n with
  | scalar _ _ "<<" _ => n.tag = "!!merge"
  | _ => false

/-- Keys are compared by their kind and their text; collections have none. -/
def sameKey : Node → Node → Bool
  | scalar _ _ a _, scalar _ _ b _ => a = b
  | reference _ a _ _, reference _ b _ _ => a = b
  | sequence .., sequence .. | mapping .., mapping .. => true
  | _, _ => false

def repeatedKeys : List (Node × Node) → List (Node × Node)
  | [] => []
  | (k, _) :: rest =>
    (rest.filter fun e => k.sameKey e.1).map (fun e => (k, e.1)) ++ repeatedKeys rest

end Node

/-! ### Nodes from events -/

structure OpenNode where
  close : List Node → Node
  name : Option Nat
  parts : List Node := []

structure Assembly where
  nodes : List OpenNode := []
  root : Option Node := none
  named : Array Node := #[]
  places : List (String × Nat) := []
  aliases : Nat := 0

namespace Assembly

def register (a : Assembly) (p : Properties) : Option Nat × Assembly :=
  match p.anchor with
  | none => (none, a)
  | some name =>
    let place := a.named.size
    (some place, { a with named := a.named.push default, places := (name, place) :: a.places })

def add (a : Assembly) (place : Option Nat) (n : Node) : Assembly :=
  let a :=
    match place with
    | some i => { a with named := a.named.setIfInBounds i n }
    | none => a
  match a.nodes with
  | [] => { a with root := some n }
  | o :: os => { a with nodes := { o with parts := n :: o.parts } :: os }

def entriesOf (before : List (Node × Node)) : List Node → List (Node × Node)
  | v :: k :: rest => entriesOf ((k, v) :: before) rest
  | _ => before

def start (a : Assembly) (p : Properties) (close : List Node → Node) : Assembly :=
  let (name, a) := a.register p
  { a with nodes := { close, name } :: a.nodes }

def finish (a : Assembly) : Assembly :=
  match a.nodes with
  | [] => a
  | o :: os => { a with nodes := os }.add o.name (o.close o.parts)

/-- Adds what an event tells. A reference needs a node that has its name. -/
def take (a : Assembly) : Event → Except Malformed Assembly
  | .scalar line p text quoted =>
    let (name, a) := a.register p
    .ok (a.add name (.scalar line (Node.properTag p.tag) text quoted))
  | .reference line name =>
    match a.places.lookup name with
    | none => .error { problem := .unknownAnchor name }
    | some target =>
      .ok ({ a with aliases := a.aliases + 1 }.add none (.reference line name a.aliases target))
  | .sequenceStart line p =>
    .ok (a.start p fun parts => .sequence line (Node.properTag p.tag) parts.reverse)
  | .mappingStart line p =>
    .ok (a.start p fun parts => .mapping line (Node.properTag p.tag) (entriesOf [] parts))
  | .sequenceEnd | .mappingEnd => .ok a.finish
  | .documentEnd => .ok a

end Assembly

def Document.parse (text : String) : Except Malformed (Option Document) := do
  let (events, problem) := Event.ofText text
  let a ← events.foldlM Assembly.take {}
  match problem with
  | some e => .error e
  | none => return a.root.map fun root => { root, named := a.named, size := events.size }

end TreeMachine.Yaml
