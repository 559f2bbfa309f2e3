import Std.Data.HashMap
import TreeMachine.Yaml.Input
import TreeMachine.Yaml.Problem

/-!
# Tokens

A stream is read as tokens. Where the nesting of a document shows only in its indentation, tokens
start and end the collections. A key is told by the `:` behind it, so its token, and the token that
starts its mapping, are put in before tokens that were there already: a place where a simple key may
begin is remembered until it is clear whether one does.
-/

namespace TreeMachine.Yaml

inductive Token where
  | streamStart
  | streamEnd
  | version (major minor : Nat)
  | tagDirective (handle start : String)
  | documentStart
  | documentEnd
  | blockSequenceStart
  | blockMappingStart
  | blockEnd
  | flowSequenceStart
  | flowSequenceEnd
  | flowMappingStart
  | flowMappingEnd
  | blockEntry
  | flowEntry
  | key
  | value
  | reference (name : String)
  | anchor (name : String)
  | tag (handle suffix : String)
  | scalar (text : String) (quoted : Bool)
deriving DecidableEq, Repr, Inhabited

structure PlacedToken where
  token : Token
  start : Nat
  stop : Nat
deriving DecidableEq, Repr, Inhabited

structure SimpleKey where
  possible : Bool
  required : Bool
  token : Nat
  pos : Nat
  line : Nat
  column : Nat
deriving Repr, Inhabited

structure Scanner extends Input where
  indent : Int := -1
  indents : List Int := []
  flowLevel : Nat := 0
  /-- The last place for a simple key outside of flow collections and in each open one, outermost
  first. -/
  keys : Array SimpleKey := #[default]
  /-- The level of the simple key that may begin with a token. -/
  keyLevels : Std.HashMap Nat Nat := {}
  keyAllowed : Bool := true
  tokens : Array PlacedToken := #[]
  head : Nat := 0
  settled : Bool := false
deriving Inhabited

abbrev Scan := EStateM Malformed Scanner

namespace Scan

def line : Scan Nat := do return (← get).line

def fail {α : Type} (p : Problem) (start : Nat) : Scan α := do
  throw (Malformed.inLexeme p start (← line))

def failHere {α : Type} (p : Problem) : Scan α := do fail p (← line)

def move (f : Input → Input) : Scan Unit := modify fun s => { s with toInput := f s.toInput }

def demand (n : Nat) : Scan Unit := do
  match (← get).toInput.demand n with
  | some i => move fun _ => i
  | none => throw { problem := .controlCharacter }

def look (k : Nat) : Scan Char := do return (← get).look k

def skip : Scan Unit := move Input.skip

def skipLine : Scan Unit := move Input.skipLine

def takeBreak : Scan String := do
  let s := (← get).breakText
  skipLine
  return s

def rounds {σ α : Type} (step : σ → Scan (σ ⊕ α)) : (n : Nat) → σ → Scan α
  | 0, _ => failHere .endOfStream
  | n + 1, x => do
    match ← step x with
    | .inl y => rounds step n y
    | .inr a => return a

/-- Repeats a step until it gives a result. A step of the reader takes in a character or looks at one
of a bounded number ahead, so the length of the stream bounds the number of rounds. -/
def loop {σ α : Type} (x : σ) (step : σ → Scan (σ ⊕ α)) : Scan α := do
  rounds step (2 * (← get).text.size + 1024) x

def takeWhile (p : Char → Bool) (s : String) : Scan String :=
  loop s fun s => do
    let c ← look 0
    if p c then
      skip
      demand 1
      return .inl (s.push c)
    else return .inr s

def skipWhile (p : Char → Bool) : Scan Unit := do
  let _ ← takeWhile p ""

def skipBlanks : Scan Unit := do
  demand 1
  skipWhile isBlank

/-! ### The queue of tokens -/

def push (t : Token) (start : Nat) : Scan Unit :=
  modify fun s => { s with tokens := s.tokens.push ⟨t, start, s.line⟩ }

def pushSkipping (t : Token) : Scan Unit := do
  skip
  push t (← line)

/-- Puts in a token without extent as number `n`; at the end if that one has been used already. -/
def insert (n : Nat) (t : Token) (line : Nat) : Scan Unit :=
  modify fun s =>
    { s with
      tokens :=
        if n < s.head then s.tokens.push ⟨t, line, line⟩
        else s.tokens.insertIdxIfInBounds n ⟨t, line, line⟩ }

/-! ### Indentation -/

def maxIndents : Nat := 10000

def currentKey : Scan SimpleKey := do return (← get).keys.back?.getD default

/-- Starts a block collection at a place, unless its column is that of the innermost one. Its token
becomes number `n`, or the last one. -/
def indentTo (line column : Nat) (n : Option Nat) (start : Token) : Scan Unit := do
  let s ← get
  if s.flowLevel = 0 && s.indent < column then
    if maxIndents ≤ s.indents.length then fail (.tooDeep maxIndents) (← currentKey).line
    modify fun s => { s with indents := s.indent :: s.indents, indent := column }
    match n with
    | some n => insert n start line
    | none => push start line

/-- Ends the block collections right of a column, at a line; in flow collections columns do not
matter. -/
def unindentTo (column : Int) (line : Nat) : Scan Unit := do
  if (← get).flowLevel = 0 then
    modify fun s =>
      let levels := s.indent :: s.indents
      let ended := (levels.takeWhile (column < ·)).length
      let rest := levels.drop ended
      { s with
        indent := rest.headD (-1)
        indents := rest.tail
        tokens := s.tokens ++ Array.replicate ended ⟨Token.blockEnd, line, line⟩ }

/-! ### Simple keys -/

def dropKey (level : Nat) : Scan Unit :=
  modify fun s => { s with keys := s.keys.modify level fun k => { k with possible := false } }

def forget (token : Nat) : Scan Unit :=
  modify fun s => { s with keyLevels := s.keyLevels.erase token }

def removeKey : Scan Unit := do
  let s ← get
  let k ← currentKey
  if k.possible then
    if k.required then fail .missingColon k.line
    dropKey (s.keys.size - 1)
    forget k.token

def saveKey : Scan Unit := do
  let s ← get
  if s.keyAllowed then
    let k : SimpleKey :=
      { possible := true, required := s.flowLevel = 0 && s.indent = s.column
        token := s.tokens.size, pos := s.pos, line := s.line, column := s.column }
    removeKey
    modify fun s =>
      { s with
        keys := s.keys.pop.push k
        keyLevels := s.keyLevels.insert k.token (s.keys.size - 1) }

/-- The key at a level may still turn out to be one: it must end on its line and within 1024
characters. -/
def keyIsValid (level : Nat) : Scan Bool := do
  let s ← get
  let k := s.keys.getD level default
  if !k.possible then return false
  else if k.line < s.line || k.pos + 1024 < s.pos then
    if k.required then fail .missingColon k.line
    dropKey level
    return false
  else return true

def allowKey (b : Bool) : Scan Unit := modify fun s => { s with keyAllowed := b }

/-! ### Flow collections -/

def maxFlowLevel : Nat := 10000

def openFlow : Scan Unit := do
  modify fun s =>
    { s with
      keys := s.keys.push
        { possible := false, required := false, token := s.tokens.size
          pos := s.pos, line := s.line, column := s.column }
      flowLevel := s.flowLevel + 1 }
  if maxFlowLevel < (← get).flowLevel then failHere (.tooDeep maxFlowLevel)

def closeFlow : Scan Unit := do
  if 0 < (← get).flowLevel then
    forget (← currentKey).token
    modify fun s => { s with keys := s.keys.pop, flowLevel := s.flowLevel - 1 }

/-! ### Comments -/

def commentReach : Nat := 512

def skipComment (k : Nat) : Scan Unit := do
  let start := (← get).pos + k
  loop () fun _ => do
    demand 1
    if isLineEnd (← look 0) then
      if start ≤ (← get).pos then return .inr ()
      demand 2
      skipLine
    else skip
    return .inl ()

/-- Takes in the comment that is next and those that follow it, with blank lines between them. A
break of more than one byte behind a comment ends the run. -/
def skipComments : Scan Unit :=
  loop 0 fun k => do
    if commentReach ≤ k then return .inr ()
    demand (k + 1)
    let c ← look k
    let wide := (← look 0).toNat = 0x85 || isSeparator (← look 0)
    if 0 < k && wide then return .inr ()
    else if isBlank c || c = '\n' || c = '\r' then return .inl (k + 1)
    else if c = '#' then
      skipComment k
      return .inl 1
    else return .inr ()

def skipLineComment : Scan Unit := do
  if (← get).newlines = 0 then
    loop 0 fun k => do
      if commentReach ≤ k then return .inr ()
      demand (k + 1)
      let c ← look k
      if isBlank c then return .inl (k + 1)
      if c = '#' then skipComment k
      return .inr ()

def skipToToken : Scan Unit :=
  loop () fun _ => do
    demand 1
    let s ← get
    if s.column = 0 && s.holdsOrderMark then skip
    demand 1
    let tabs := 0 < s.flowLevel || !s.keyAllowed
    skipWhile fun c => c = ' ' || (tabs && c = '\t')
    if (← look 0) = '#' then skipComments
    if isBreak (← look 0) then
      demand 2
      skipLine
      if (← get).flowLevel = 0 then allowKey true
      return .inl ()
    else return .inr ()

end Scan

end TreeMachine.Yaml
