import TreeMachine.Yaml.Token

/-!
# Lexemes

The parts of a stream that stand for one token each: directives, anchors and aliases, tags, and
scalars in blocks, in quotes and plain. Each reader starts at the first character of its lexeme and
stops behind the last one.
-/

namespace TreeMachine.Yaml

def apostrophe : Char := Char.ofNat 39

def doubleQuote : Char := Char.ofNat 34

def digit? (c : Char) : Option Nat :=
  if c.isDigit then some (c.toNat - 48)
  else if 'a' ≤ c && c ≤ 'f' then some (c.toNat - 87)
  else if 'A' ≤ c && c ≤ 'F' then some (c.toNat - 55)
  else none

namespace Scan

/-! ### Names and tags -/

def takeName : Scan String := do
  skip
  demand 1
  let name ← takeWhile isNameChar ""
  let c ← look 0
  if name.isEmpty || !(isGap c || "?:,]\x7d%@\x60".contains c) then failHere .missingName
  return name

/-- A tag handle: names between two `!`. The second `!` may be missing if what follows `!` turns out
to be the tag itself. -/
def takeHandle (start : Nat) : Scan String := do
  demand 1
  if (← look 0) ≠ '!' then fail .missingTagMark start
  skip
  demand 1
  let s ← takeWhile isNameChar "!"
  if (← look 0) = '!' then
    skip
    return s.push '!'
  else return s

def isTagChar (c : Char) : Bool :=
  isNameChar c || ";/?:@&=+$,.!~*()[]".contains c || c = apostrophe

def widthOf (octet : Nat) : Nat :=
  if octet < 0x80 then 1
  else if octet / 0x20 = 0x6 then 2
  else if octet / 0x10 = 0xe then 3
  else if octet / 0x8 = 0x1e then 4
  else 0

def takeOctet (start : Nat) : Scan Nat := do
  demand 3
  match ← look 0, digit? (← look 1), digit? (← look 2) with
  | '%', some high, some low =>
    skip
    skip
    skip
    return high * 16 + low
  | _, _, _ => fail .missingOctet start

def shownBytes (bytes : ByteArray) : String :=
  (String.fromUTF8? bytes).getD (String.ofList (List.replicate bytes.size (Char.ofNat 0xfffd)))

def takeEscape (start : Nat) : Scan String := do
  let first ← takeOctet start
  let width := widthOf first
  if width = 0 then fail .firstOctet start
  let bytes ← (List.range (width - 1)).foldlM
    (fun (bytes : ByteArray) _ => do
      let octet ← takeOctet start
      if octet / 0x40 ≠ 2 then fail .laterOctet start
      return bytes.push octet.toUInt8)
    (ByteArray.empty.push first.toUInt8)
  return shownBytes bytes

def takeTagText (start : Nat) (known : String) : Scan String := do
  demand 1
  loop known fun s => do
    let c ← look 0
    if isTagChar c then
      skip
      demand 1
      return .inl (s.push c)
    else if c = '%' then
      let c ← takeEscape start
      demand 1
      return .inl (s ++ c)
    else return .inr s

def needTagText (start : Nat) : Scan String := do
  let s ← takeTagText start ""
  if s.isEmpty then fail .missingTagText start
  return s

def takeTag : Scan Token := do
  let start ← line
  demand 2
  let t ←
    if (← look 1) = '<' then do
      skip
      skip
      let s ← needTagText start
      if (← look 0) ≠ '>' then fail .unclosedTag start
      skip
      pure (Token.tag "" s)
    else do
      let handle ← takeHandle start
      if 1 < handle.length && handle.endsWith "!" then
        pure (Token.tag handle (← needTagText start))
      else
        let s ← takeTagText start (handle.drop 1).toString
        pure (if s.isEmpty then Token.tag "" "!" else Token.tag "!" s)
  demand 1
  if isGap (← look 0) then return t else fail .missingGap start

/-! ### Directives -/

def takeNumber (start : Nat) : Scan Nat := do
  demand 1
  let s ← takeWhile Char.isDigit ""
  if s.isEmpty then fail .missingVersionNumber start
  if 2 < s.length then fail .longVersionNumber start
  return s.foldl (fun n c => n * 10 + (c.toNat - 48)) 0

def endLine (start : Nat) : Scan Unit := do
  skipBlanks
  if (← look 0) = '#' then skipWhile (!isLineEnd ·)
  if !isLineEnd (← look 0) then fail .missingLineEnd start
  if isBreak (← look 0) then
    demand 2
    skipLine

def takeDirective : Scan Token := do
  let start ← line
  skip
  demand 1
  let name ← takeWhile isNameChar ""
  if name.isEmpty then fail .missingDirectiveName start
  if !isGap (← look 0) then fail .directiveNameCharacter start
  let t ←
    if name = "YAML" then do
      skipBlanks
      let major ← takeNumber start
      if (← look 0) ≠ '.' then fail .missingVersionDot start
      skip
      pure (Token.version major (← takeNumber start))
    else if name = "TAG" then do
      skipBlanks
      let handle ← takeHandle start
      if handle ≠ "!" && !handle.endsWith "!" then fail .missingTagMark start
      demand 1
      if !isBlank (← look 0) then fail .missingBlank start
      skipBlanks
      let text ← needTagText start
      demand 1
      if !isGap (← look 0) then fail .missingGap start
      pure (Token.tagDirective handle text)
    else fail .unknownDirective start
  endLine start
  return t

/-! ### Scalars in blocks -/

inductive Chomping where
  | strip
  | clip
  | keep
deriving DecidableEq, Repr

def takeChomping : Scan (Option Chomping) := do
  match ← look 0 with
  | '+' =>
    skip
    return some .keep
  | '-' =>
    skip
    return some .strip
  | _ => return none

def takeIndentation (start : Nat) : Scan (Option Nat) := do
  let c ← look 0
  if c = '0' then fail .zeroIndentation start
  if c.isDigit then
    skip
    return some (c.toNat - 48)
  else return none

def takeBlockMarks (start : Nat) : Scan (Chomping × Option Nat) := do
  demand 1
  match ← takeChomping with
  | some chomping =>
    demand 1
    return (chomping, ← takeIndentation start)
  | none =>
    match ← takeIndentation start with
    | some n =>
      demand 1
      return ((← takeChomping).getD .clip, some n)
    | none => return (.clip, none)

/-- Takes in the lines without content before the next line of a block, and its indentation. A block
whose indentation is not known yet takes it from there. The result is the indentation and the
breaks. -/
def takeBlankLines (start : Nat) (indent : Option Nat) : Scan (Nat × String) := do
  let (widest, breaks) ← loop (0, "") fun (widest, breaks) => do
    demand 1
    loop () fun _ => do
      if inside (← get).column && (← look 0) = ' ' then
        skip
        demand 1
        return .inl ()
      else return .inr ()
    let widest := max widest (← get).column
    if inside (← get).column && (← look 0) = '\t' then fail .tabIndentation start
    if isBreak (← look 0) then
      demand 2
      return .inl (widest, breaks ++ (← takeBreak))
    else return .inr (widest, breaks)
  let least := ((← get).indent + 1).toNat
  return (indent.getD (max (max widest least) 1), breaks)
where
  inside (column : Nat) : Bool :=
    match indent with
    | some n => column < n
    | none => true

structure Block where
  text : String := ""
  lineBreak : String := ""
  blankLines : String
  indented : Bool := false
  indent : Nat

/-- A scalar in a block. Where lines are folded, a single break between two lines that do not start
with a blank becomes a space. -/
def takeBlock (folded : Bool) : Scan Token := do
  let start ← line
  skip
  let (chomping, increment) ← takeBlockMarks start
  endLine start
  let base := (← get).indent.toNat
  let (indent, blankLines) ← takeBlankLines start (increment.map (base + ·))
  demand 1
  let b ← loop ({ blankLines, indent } : Block) fun b => do
    let c ← look 0
    if (← get).column = b.indent && c ≠ endMark then
      let joined :=
        if folded && b.lineBreak.startsWith "\n" && !b.indented && !isBlank c then
          if b.blankLines.isEmpty then " " else ""
        else b.lineBreak
      let text ← takeWhile (!isLineEnd ·) (b.text ++ joined ++ b.blankLines)
      demand 2
      let lineBreak ← takeBreak
      let (_, blankLines) ← takeBlankLines start (some b.indent)
      return .inl { text, lineBreak, blankLines, indented := isBlank c, indent := b.indent }
    else return .inr b
  return .scalar (b.text ++ ending chomping b) true
where
  ending : Chomping → Block → String
    | .strip, _ => ""
    | .clip, b => b.lineBreak
    | .keep, b => b.lineBreak ++ b.blankLines

/-! ### Space in scalars -/

structure Space where
  blanks : String := ""
  firstBreak : String := ""
  moreBreaks : String := ""
  broken : Bool := false

/-- What the space is in the text: a single break becomes a blank, of several the first is dropped. -/
def Space.text (s : Space) : String :=
  if !s.broken then s.blanks
  else if s.firstBreak.startsWith "\n" then if s.moreBreaks.isEmpty then " " else s.moreBreaks
  else s.firstBreak ++ s.moreBreaks

def takeSpace (start indent : Nat) (space : Space) : Scan Space :=
  loop space fun s => do
    let c ← look 0
    if isBlank c then
      if s.broken && c = '\t' && (← get).column < indent then fail .tabInText start
      skip
      demand 1
      return .inl (if s.broken then s else { s with blanks := s.blanks.push c })
    else if isBreak c then
      demand 2
      let b ← takeBreak
      demand 1
      return .inl <|
        if s.broken then { s with moreBreaks := s.moreBreaks ++ b }
        else { s with blanks := "", firstBreak := b, broken := true }
    else return .inr s

/-! ### Scalars in quotes -/

def escapes : List (Char × Nat) :=
  [('0', 0), ('a', 7), ('b', 8), ('t', 9), ('\t', 9), ('n', 10), ('v', 11), ('f', 12), ('r', 13),
    ('e', 0x1b), (' ', 0x20), (doubleQuote, 34), (apostrophe, 39), ('\\', 0x5c), ('N', 0x85),
    ('_', 0xa0), ('L', 0x2028), ('P', 0x2029)]

def codeEscapes : List (Char × Nat) := [('x', 2), ('u', 4), ('U', 8)]

def takeCode (start n : Nat) : Scan Char := do
  demand n
  let code ← (List.range n).foldlM
    (fun code k => do
      match digit? (← look k) with
      | some d => return code * 16 + d
      | none => fail .missingDigits start)
    0
  if code.isValidChar then
    (List.range n).forM fun _ => skip
    return Char.ofNat code
  else fail .invalidCode start

def takeEscaped (start : Nat) : Scan Char := do
  let c ← look 1
  skip
  skip
  match escapes.lookup c, codeEscapes.lookup c with
  | some n, _ => return Char.ofNat n
  | none, some n => takeCode start n
  | none, none => fail .unknownEscape start

/-- Text in quotes up to a blank, a break or the closing quote. The flag says that an escaped break
ended it. -/
def takeQuotedWord (start : Nat) (quote : Char) (s : String) : Scan (String × Bool) :=
  loop s fun s => do
    let c ← look 0
    let next ← look 1
    if isGap c then return .inr (s, false)
    else if c = quote then
      if quote = apostrophe && next = apostrophe then
        skip
        skip
        demand 2
        return .inl (s.push apostrophe)
      else return .inr (s, false)
    else if quote = doubleQuote && c = '\\' then
      if isBreak next then
        demand 3
        skip
        skipLine
        return .inr (s, true)
      else
        let e ← takeEscaped start
        demand 2
        return .inl (s.push e)
    else
      skip
      demand 2
      return .inl (s.push c)

def takeQuoted (quote : Char) : Scan Token := do
  let start ← line
  skip
  let text ← loop "" fun s => do
    demand 4
    if (← get).atDocumentMark then fail .documentMark start
    if (← look 0) = endMark then fail .endOfStream start
    let (s, broken) ← takeQuotedWord start quote s
    demand 1
    if (← look 0) = quote then return .inr s
    let space ← takeSpace start 0 { broken }
    return .inl (s ++ space.text)
  skip
  return .scalar text true

/-! ### Plain scalars -/

structure Plain where
  text : String := ""
  space : Space := {}

def takePlainWord (p : Plain) : Scan Plain := do
  let inFlow := 0 < (← get).flowLevel
  loop p fun p => do
    let c ← look 0
    if isGap c || (c = ':' && isGap (← look 1)) || (inFlow && ",?[]\x7b\x7d".contains c) then
      return .inr p
    else
      skip
      demand 2
      return .inl { text := (p.text ++ p.space.text).push c }

def takePlain : Scan Token := do
  let start ← line
  let indent := ((← get).indent + 1).toNat
  let p ← loop ({} : Plain) fun p => do
    demand 4
    if (← get).atDocumentMark || (← look 0) = '#' then return .inr p
    let p ← takePlainWord p
    let c ← look 0
    if isBlank c || isBreak c then
      demand 1
      let p := { p with space := ← takeSpace start indent p.space }
      let s ← get
      if s.flowLevel = 0 && s.column < indent then return .inr p else return .inl p
    else return .inr p
  if p.space.broken then allowKey true
  return .scalar p.text false

end Scan

end TreeMachine.Yaml
