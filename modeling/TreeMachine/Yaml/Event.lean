import TreeMachine.Yaml.TokenStream

/-!
# Events

A document as a sequence of events: the beginnings and ends of its collections, its scalars, and its
references to nodes with a name. Where a node is left out, the event of an empty scalar stands for it,
so that keys and values alternate in every mapping. An event that begins a node has the line where the
node starts.
-/

namespace TreeMachine.Yaml

structure Properties where
  anchor : Option String := none
  tag : Option String := none
deriving DecidableEq, Repr, Inhabited

inductive Event where
  | scalar (line : Nat) (p : Properties) (text : String) (quoted : Bool)
  | reference (line : Nat) (name : String)
  | sequenceStart (line : Nat) (p : Properties)
  | sequenceEnd
  | mappingStart (line : Nat) (p : Properties)
  | mappingEnd
  | documentEnd
deriving DecidableEq, Repr, Inhabited

def Event.empty (line : Nat) : Event := .scalar line {} "" false

inductive Expected where
  | content
  | documentEnd
  | node
  | blockEntry
  | unindentedEntry
  | blockKey
  | blockValue
  | flowEntry (first : Bool)
  | pairKey
  | pairValue
  | pairEnd
  | flowKey (first : Bool)
  | flowValue
  | noValue
deriving DecidableEq, Repr, Inhabited

structure EventReader where
  scanner : Scanner
  expected : Expected := .node
  /-- What is expected behind the nodes that are open, innermost first. -/
  pending : List Expected := [.documentEnd]
  handles : List (String × String) := []
  /-- The lines of the tokens that start the open collections, innermost first. -/
  starts : List Nat := []
  events : Array Event := #[]
deriving Inhabited

abbrev Parse := EStateM Malformed EventReader

namespace Parse

def failAt {α : Type} (p : Problem) (start : Nat) (t : PlacedToken) : Parse α :=
  throw (Malformed.of p start t.start)

def failInside {α : Type} (p : Problem) (t : PlacedToken) : Parse α := do
  failAt p ((← get).starts.headD 0) t

def onTokens {α : Type} (x : Scan α) : Parse α
  | ⟨scanner, expected, pending, handles, starts, events⟩ =>
    match x scanner with
    | .ok a scanner => .ok a ⟨scanner, expected, pending, handles, starts, events⟩
    | .error e scanner => .error e ⟨scanner, expected, pending, handles, starts, events⟩

def peekPlaced : Parse PlacedToken := onTokens Scan.peek

def peek : Parse Token := do return (← peekPlaced).token

def next : Parse Unit := onTokens Scan.next

def expect (e : Expected) : Parse Unit := modify fun s => { s with expected := e }

def resumeWith (e : Expected) : Parse Unit := modify fun s => { s with pending := e :: s.pending }

def resume : Parse Unit :=
  modify fun s => { s with expected := s.pending.headD .documentEnd, pending := s.pending.tail }

def close (e : Event) : Parse Event := do
  resume
  return e

def closeAt (e : Event) : Parse Event := do
  next
  modify fun s => { s with starts := s.starts.tail }
  close e

def leaveOut (line : Nat) (e : Expected) : Parse Event := do
  expect e
  return .empty line

/-! ### Nodes -/

def takeAnchor : Parse (Option String) := do
  match ← peek with
  | .anchor name =>
    next
    return some name
  | _ => return none

def takeTag : Parse (Option PlacedToken) := do
  let t ← peekPlaced
  match t.token with
  | .tag .. =>
    next
    return some t
  | _ => return none

def tagOf (start : Nat) (t : PlacedToken) : Parse (Option String) := do
  match t.token with
  | .tag handle suffix =>
    if handle.isEmpty then return some suffix
    else
      match (← get).handles.lookup handle with
      | some text => return some (text ++ suffix)
      | none => failAt .undefinedHandle start t
  | _ => return none

/-- An anchor and a tag, in either order, for a node that starts at line `start`. The handle of the tag
is replaced once the token behind them is known. -/
def takeProperties (start : Nat) : Parse Properties := do
  let first ← takeAnchor
  let tag ← takeTag
  let anchor ← if first.isSome then pure first else takeAnchor
  let _ ← peek
  match tag with
  | some t => return { anchor, tag := ← tagOf start t }
  | none => return { anchor }

def openAt (e : Event) (first : Expected) (t : PlacedToken) : Parse Event := do
  next
  modify fun s => { s with starts := t.start :: s.starts }
  expect first
  return e

/-- The first event of a node. Block collections only start where `block` allows them, and those that
are not indented only where `unindented` does. -/
def node (block unindented : Bool) : Parse Event := do
  let first ← peekPlaced
  let line := first.start
  match first.token with
  | .reference name =>
    next
    close (.reference line name)
  | _ =>
    let p ← takeProperties line
    let t ← peekPlaced
    match t.token with
    | .scalar text quoted =>
      next
      close (.scalar line p text quoted)
    | .flowSequenceStart => openAt (.sequenceStart line p) (.flowEntry true) t
    | .flowMappingStart => openAt (.mappingStart line p) (.flowKey true) t
    | token =>
      if unindented && token = .blockEntry then
        expect .unindentedEntry
        return .sequenceStart line p
      else if block && token = .blockSequenceStart then
        openAt (.sequenceStart line p) .blockEntry t
      else if block && token = .blockMappingStart then openAt (.mappingStart line p) .blockKey t
      else if p ≠ {} then close (.scalar line p "" false)
      else failAt .missingContent line t

/-- The node behind the token `before`, which is taken in, unless the next token is one of `ends`: then
the node is left out. That is where the token before it ends in a block collection, and where the next
one starts in a flow collection. Behind the node `e` is expected. -/
def nodeBehind (before : PlacedToken) (ends : List Token) (block unindented : Bool) (e : Expected) :
    Parse Event := do
  next
  let t ← peekPlaced
  if ends.contains t.token then leaveOut (if block then before.stop else t.start) e
  else
    resumeWith e
    node block unindented

/-! ### Collections -/

def blockEntry : Parse Event := do
  let t ← peekPlaced
  match t.token with
  | .blockEntry => nodeBehind t [.blockEntry, .blockEnd] true false .blockEntry
  | .blockEnd => closeAt .sequenceEnd
  | _ => failInside .missingDash t

def unindentedEntry : Parse Event := do
  let t ← peekPlaced
  match t.token with
  | .blockEntry =>
    nodeBehind t [.blockEntry, .key, .value, .blockEnd] true false .unindentedEntry
  | _ => close .sequenceEnd

def blockKey : Parse Event := do
  let t ← peekPlaced
  match t.token with
  | .key => nodeBehind t [.key, .value, .blockEnd] true true .blockValue
  | .blockEnd => closeAt .mappingEnd
  | _ => failInside .missingKey t

def blockValue : Parse Event := do
  let t ← peekPlaced
  match t.token with
  | .value => nodeBehind t [.key, .value, .blockEnd] true true .blockKey
  | _ => leaveOut t.start .blockKey

def separate (first : Bool) (ending : Token) (mark : Char) : Parse Unit := do
  let t ← peekPlaced
  if !first && t.token ≠ ending then
    if t.token = .flowEntry then next else failInside (.missingComma mark) t

def flowEntry (first : Bool) : Parse Event := do
  separate first .flowSequenceEnd ']'
  let t ← peekPlaced
  match t.token with
  | .flowSequenceEnd => closeAt .sequenceEnd
  | .key =>
    next
    expect .pairKey
    return .mappingStart t.start {}
  | _ =>
    resumeWith (.flowEntry false)
    node false false

def pairKey : Parse Event := do
  let t ← peekPlaced
  if [Token.value, .flowEntry, .flowSequenceEnd].contains t.token then
    next
    leaveOut t.stop .pairValue
  else
    resumeWith .pairValue
    node false false

def pairValue : Parse Event := do
  let t ← peekPlaced
  match t.token with
  | .value => nodeBehind t [.flowEntry, .flowSequenceEnd] false false .pairEnd
  | _ => leaveOut t.start .pairEnd

def flowKey (first : Bool) : Parse Event := do
  separate first .flowMappingEnd '\x7d'
  let t ← peekPlaced
  match t.token with
  | .flowMappingEnd => closeAt .mappingEnd
  | .key => nodeBehind t [.value, .flowEntry, .flowMappingEnd] false false .flowValue
  | _ =>
    resumeWith .noValue
    node false false

def flowValue : Parse Event := do
  let t ← peekPlaced
  match t.token with
  | .value => nodeBehind t [.flowEntry, .flowMappingEnd] false false (.flowKey false)
  | _ => leaveOut t.start (.flowKey false)

/-! ### Documents -/

def content : Parse Event := do
  let t ← peekPlaced
  match t.token with
  | .version .. | .tagDirective .. | .documentStart | .documentEnd | .streamEnd =>
    resume
    return .empty t.start
  | _ => node true false

def documentEnd : Parse Event := do
  if (← peek) = .documentEnd then next
  return .documentEnd

def event : Parse Event := do
  match (← get).expected with
  | .content => content
  | .documentEnd => documentEnd
  | .node => node true false
  | .blockEntry => blockEntry
  | .unindentedEntry => unindentedEntry
  | .blockKey => blockKey
  | .blockValue => blockValue
  | .flowEntry first => flowEntry first
  | .pairKey => pairKey
  | .pairValue => pairValue
  | .pairEnd =>
    expect (.flowEntry false)
    return .mappingEnd
  | .flowKey first => flowKey first
  | .flowValue => flowValue
  | .noValue => leaveOut (← peekPlaced).start (.flowKey false)

/-- Takes in up to `n` directives. `%YAML` may come once, and a handle may be declared once. -/
def directives : (n : Nat) → (version : Bool) → Parse Unit
  | 0, _ => failAt .missingDocumentStart 0 default
  | n + 1, version => do
    let t ← peekPlaced
    match t.token with
    | .version major minor =>
      if version then failAt .secondVersion 0 t
      if (major, minor) ≠ (1, 1) then failAt .otherVersion 0 t
      next
      directives n true
    | .tagDirective handle text =>
      if ((← get).handles.lookup handle).isSome then failAt .secondHandle 0 t
      modify fun s => { s with handles := (handle, text) :: s.handles }
      next
      directives n version
    | _ => return

def defaultHandles : List (String × String) := [("!", "!"), ("!!", "tag:yaml.org,2002:")]

def start : Parse Bool := do
  next
  match ← peek with
  | .streamEnd => return false
  | .version .. | .tagDirective .. | .documentStart =>
    directives ((← get).scanner.text.size + 1) false
    let t ← peekPlaced
    if t.token ≠ .documentStart then failAt .missingDocumentStart 0 t
    next
    expect .content
  | _ => pure ()
  modify fun s => { s with handles := s.handles ++ defaultHandles }
  return true

def events : (n : Nat) → Parse Unit
  | 0 => return
  | n + 1 => do
    match ← event with
    | .documentEnd => return
    | e =>
      modify fun s => { s with events := s.events.push e }
      events n

end Parse

/-- A bound for the number of events of a stream: a token brings about at most three. -/
def Scanner.maxEvents (s : Scanner) : Nat := 16 * (s.text.size + 16)

/-- The events of the first document of a text, and the problem that they end with, if there is one.
There are no events if the text has no document. -/
def Event.ofText (s : String) : Array Event × Option Malformed :=
  let scanner : Scanner := { toInput := Input.ofString s }
  let read : Parse Unit := do
    let _ ← Parse.peek
    if ← Parse.start then Parse.events scanner.maxEvents
  match read.run { scanner } with
  | .ok _ r => (r.events, none)
  | .error e r => (r.events, some e)

end TreeMachine.Yaml
