import TreeMachine.Yaml.Lexeme

/-!
# The tokens of a stream

The next characters decide which token comes next. Tokens are read ahead: the next one is settled
when two more follow it and no simple key can begin with it any longer.
-/

namespace TreeMachine.Yaml

namespace Scan

def leaveBlocks : Scan Unit := do
  unindentTo (-1) (← line)
  removeKey
  allowKey false

def fetchStreamEnd : Scan Unit := do
  if (← get).column ≠ 0 then move fun i => { i with column := 0, line := i.line + 1 }
  leaveBlocks
  push .streamEnd (← line)

def fetchDocumentMark (t : Token) : Scan Unit := do
  leaveBlocks
  skip
  skip
  pushSkipping t

def fetchFlowStart (t : Token) : Scan Unit := do
  saveKey
  openFlow
  allowKey true
  pushSkipping t

def fetchFlowEnd (t : Token) : Scan Unit := do
  removeKey
  closeFlow
  allowKey false
  pushSkipping t

def fetchFlowEntry : Scan Unit := do
  removeKey
  allowKey true
  pushSkipping .flowEntry

/-- Outside of flow collections, an indicator starts its block collection where a key may begin, and
only there. -/
def startBlock (start : Token) (stray : Problem) : Scan Unit := do
  let s ← get
  if s.flowLevel = 0 then
    if !s.keyAllowed then failHere stray
    indentTo s.line s.column none start

def fetchBlockEntry : Scan Unit := do
  startBlock .blockSequenceStart .strayEntry
  removeKey
  allowKey true
  pushSkipping .blockEntry

def fetchKey : Scan Unit := do
  startBlock .blockMappingStart .strayKey
  removeKey
  allowKey ((← get).flowLevel = 0)
  pushSkipping .key

def fetchValue : Scan Unit := do
  let level := (← get).keys.size - 1
  if ← keyIsValid level then
    let k ← currentKey
    insert k.token .key k.line
    indentTo k.line k.column (some k.token) .blockMappingStart
    dropKey level
    forget k.token
    allowKey false
  else
    startBlock .blockMappingStart .strayValue
    allowKey ((← get).flowLevel = 0)
  pushSkipping .value

def fetchInLine (take : Scan Token) : Scan Unit := do
  saveKey
  allowKey false
  let start ← line
  push (← take) start

def fetchBlock (folded : Bool) : Scan Unit := do
  removeKey
  allowKey true
  let start ← line
  push (← takeBlock folded) start

def beginsPlain (inFlow : Bool) (c next : Char) : Bool :=
  !(isGap c || "-?:,[]\x7b\x7d#&*!|>%@\x60".contains c || c = apostrophe || c = doubleQuote) ||
    (c = '-' && !isBlank next) ||
    (!inFlow && (c = '?' || c = ':') && !isGap next)

def fetchContent : Scan Unit := do
  let c ← look 0
  let next ← look 1
  let inFlow := 0 < (← get).flowLevel
  if c = '[' then fetchFlowStart .flowSequenceStart
  else if c = '\x7b' then fetchFlowStart .flowMappingStart
  else if c = ']' then fetchFlowEnd .flowSequenceEnd
  else if c = '\x7d' then fetchFlowEnd .flowMappingEnd
  else if c = ',' then fetchFlowEntry
  else if c = '-' && isGap next then fetchBlockEntry
  else if c = '?' && (inFlow || isGap next) then fetchKey
  else if c = ':' && (inFlow || isGap next) then fetchValue
  else if c = '*' then fetchInLine do return .reference (← takeName)
  else if c = '&' then fetchInLine do return .anchor (← takeName)
  else if c = '!' then fetchInLine takeTag
  else if c = '|' && !inFlow then fetchBlock false
  else if c = '>' && !inFlow then fetchBlock true
  else if c = apostrophe || c = doubleQuote then fetchInLine (takeQuoted c)
  else if beginsPlain inFlow c next then fetchInLine takePlain
  else failHere .noToken
  if ((← get).tokens.back?.map (·.token)) ≠ some .blockEntry then skipLineComment

def fetch : Scan Unit := do
  demand 1
  if (← get).tokens.isEmpty then push .streamStart (← line)
  else
    let before ← line
    skipToToken
    unindentTo (← get).column before
    demand 4
    let c ← look 0
    if c = endMark then fetchStreamEnd
    else if c = '%' && (← get).column = 0 then
      leaveBlocks
      let start ← line
      push (← takeDirective) start
    else if (← get).atDocumentMark then
      fetchDocumentMark (if c = '-' then .documentStart else .documentEnd)
    else fetchContent

def settle : Scan Unit := do
  if !(← get).settled then
    loop () fun _ => do
      let s ← get
      if s.tokens.size ≤ s.head + 2 then
        fetch
        return .inl ()
      else
        match s.keyLevels[s.head]? with
        | none => return .inr ()
        | some level =>
          if ← keyIsValid level then
            fetch
            return .inl ()
          else return .inr ()
    modify fun s => { s with settled := true }

def peek : Scan PlacedToken := do
  settle
  let s ← get
  return s.tokens.getD s.head ⟨.streamEnd, s.line, s.line⟩

def next : Scan Unit := modify fun s => { s with settled := false, head := s.head + 1 }

end Scan

end TreeMachine.Yaml
