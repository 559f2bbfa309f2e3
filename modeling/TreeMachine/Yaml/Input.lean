/-!
# The text of a stream

A stream is taken in from the front, character by character; the line and column of the next
character are at hand. Its characters become available in portions of at most 512 bytes. A character
that must not occur is noticed when its portion is asked for, not before.
-/

namespace TreeMachine.Yaml

/-! ### Characters -/

def endMark : Char := Char.ofNat 0

def orderMark : Char := Char.ofNat 0xfeff

def isBlank (c : Char) : Bool := c = ' ' || c = '\t'

def isSeparator (c : Char) : Bool := c.toNat = 0x2028 || c.toNat = 0x2029

def isBreak (c : Char) : Bool := c = '\n' || c = '\r' || c.toNat = 0x85 || isSeparator c

def isLineEnd (c : Char) : Bool := isBreak c || c = endMark

def isGap (c : Char) : Bool := isBlank c || isLineEnd c

def isNameChar (c : Char) : Bool := c.isAlphanum || c = '_' || c = '-'

def isAllowed (c : Char) : Bool :=
  let n := c.toNat
  n = 9 || n = 10 || n = 13 || (0x20 ≤ n && n ≤ 0x7e) || n = 0x85 || (0xa0 ≤ n && n ≤ 0xd7ff) ||
    (0xe000 ≤ n && n ≤ 0xfffd) || 0x10000 ≤ n

/-! ### Portions -/

structure Portion where
  size : Nat
  clean : Bool
deriving DecidableEq, Repr

def portionBytes : Nat := 512

/-- Cuts characters into portions, of which the first has `room` bytes left and `size` characters so
far. Nothing behind a character that is not allowed can become available. -/
def portionsFrom (room size : Nat) : List Char → List Portion
  | [] => if size = 0 then [] else [⟨size, true⟩]
  | c :: cs =>
    if c.utf8Size ≤ room then
      if isAllowed c then portionsFrom (room - c.utf8Size) (size + 1) cs else [⟨size, false⟩]
    else
      ⟨size, true⟩ ::
        if isAllowed c then portionsFrom (portionBytes - c.utf8Size) 1 cs else [⟨0, false⟩]

structure Input where
  text : Array Char
  portions : List Portion
  pos : Nat := 0
  available : Nat := 0
  front : Nat := 0
  line : Nat := 0
  column : Nat := 0
  newlines : Nat := 0
deriving Repr, Inhabited

namespace Input

/-- A stream of some text. A byte order mark at its start does not count; a stream without any text is
an empty line. -/
def ofString (s : String) : Input :=
  match s.toList with
  | [] => { text := #['\n'], portions := [⟨1, true⟩] }
  | c :: cs =>
    if c = orderMark then
      { text := cs.toArray, portions := portionsFrom (portionBytes - c.utf8Size) 0 cs }
    else { text := (c :: cs).toArray, portions := portionsFrom portionBytes 0 (c :: cs) }

def look (i : Input) (k : Nat) : Char := (i.text[i.pos + k]?).getD endMark

def load (goal : Nat) : List Portion → (available : Nat) → Option (List Portion × Nat)
  | [], available => some ([], available + 1)
  | p :: ps, available =>
    let n := available + p.size
    if p.clean then if goal ≤ n then some (ps, n) else load goal ps n
    else none

/-- Makes the next `n` characters available. Characters taken in before are held no longer. -/
def demand (i : Input) (n : Nat) : Option Input :=
  if i.pos + n ≤ i.available then some i
  else
    (load (i.pos + n) i.portions i.available).map fun (ps, available) =>
      { i with portions := ps, available := available, front := i.pos }

def holdsOrderMark (i : Input) : Bool := i.text[i.front]? = some orderMark

def skip (i : Input) : Input :=
  { i with
    pos := i.pos + 1
    column := i.column + 1
    newlines := if isBlank (i.look 0) then i.newlines else 0 }

def skipLine (i : Input) : Input :=
  let n := if i.look 0 = '\r' && i.look 1 = '\n' then 2 else if isBreak (i.look 0) then 1 else 0
  if n = 0 then i
  else { i with pos := i.pos + n, line := i.line + 1, column := 0, newlines := i.newlines + 1 }

def breakText (i : Input) : String :=
  let c := i.look 0
  if isSeparator c then String.singleton c else if isBreak c then "\n" else ""

def atDocumentMark (i : Input) : Bool :=
  let c := i.look 0
  i.column = 0 && (c = '-' || c = '.') && i.look 1 = c && i.look 2 = c && isGap (i.look 3)

end Input

end TreeMachine.Yaml
