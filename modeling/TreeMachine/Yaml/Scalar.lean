import TreeMachine.Number.Nearest
import TreeMachine.Text.Base64
import TreeMachine.Yaml.Lexeme
import TreeMachine.Yaml.Timestamp

/-!
# Scalars

What the text of a scalar stands for. Quoted text stands for itself; plain text may be null, a truth
value, a number or a point in time. A tag says what a text must stand for.
-/

namespace TreeMachine.Yaml

inductive Scalar where
  | null
  | bool (b : Bool)
  | int (n : Int)
  | float (w : Binary64)
  | timestamp (t : Timestamp)
  | text (s : String)
  | bytes (b : List UInt8)
deriving DecidableEq, Repr, Inhabited

namespace Scalar

/-- The two are the same key. What is not a number is no key twice, and both zeros are one key. -/
def sameKey : Scalar → Scalar → Bool
  | float a, float b => a.equal b
  | timestamp a, timestamp b => a.same b
  | a, b => a = b

def words : List (String × Scalar) :=
  let infinity : Binary64 := 0x7ff0000000000000
  [("", .null), ("~", .null), ("null", .null), ("Null", .null), ("NULL", .null),
    ("true", .bool true), ("True", .bool true), ("TRUE", .bool true),
    ("false", .bool false), ("False", .bool false), ("FALSE", .bool false),
    (".nan", .float .nan), (".NaN", .float .nan), (".NAN", .float .nan),
    (".inf", .float infinity), (".Inf", .float infinity), (".INF", .float infinity),
    ("+.inf", .float infinity), ("+.Inf", .float infinity), ("+.INF", .float infinity),
    ("-.inf", .float infinity.negate), ("-.Inf", .float infinity.negate),
    ("-.INF", .float infinity.negate)]

/-! ### Numbers -/

def natural? (base : Nat) (ds : List Char) : Option Nat :=
  if ds.isEmpty then none
  else
    ds.foldlM (fun n c => (digit? c).bind fun d => if d < base then some (n * base + d) else none) 0

/-- A number without its sign; a leading zero and a letter give the base, a leading zero alone means
octal. -/
def unsigned? : List Char → Option Nat
  | '0' :: c :: ds =>
    if c = 'x' || c = 'X' then natural? 16 ds
    else if c = 'b' || c = 'B' then natural? 2 ds
    else if c = 'o' || c = 'O' then natural? 8 ds
    else natural? 8 (c :: ds)
  | ds => natural? 10 ds

def sign : List Char → Bool × List Char
  | '-' :: cs => (true, cs)
  | '+' :: cs => (false, cs)
  | cs => (false, cs)

def signed? (negative : Bool) (n : Nat) : Option Int :=
  if negative then if n ≤ Nat.pow 2 63 then some (-n) else none
  else if n < Nat.pow 2 63 then some n
  else none

def integer? (cs : List Char) : Option Int := do
  let (negative, ds) := sign cs
  let n ← unsigned? ds
  if cs = ds && n < Nat.pow 2 64 then some n else signed? negative n

def lateSigned? : List Char → Option Int
  | '0' :: c :: cs => do
    let base ← if c = 'b' then some 2 else if c = 'o' then some 8 else none
    let (negative, ds) := sign cs
    signed? negative (← natural? base ds)
  | _ => none

def exponent? : List Char → Option Int
  | [] => some 0
  | c :: cs =>
    if c = 'e' || c = 'E' then
      let (negative, ds) := sign cs
      (natural? 10 ds).map fun n => if negative then -n else n
    else none

def decimal? (cs : List Char) : Option Binary64 :=
  let (negative, cs) := sign cs
  let whole := cs.takeWhile Char.isDigit
  let rest := cs.dropWhile Char.isDigit
  let (places, rest) :=
    match rest with
    | '.' :: r => (r.takeWhile Char.isDigit, r.dropWhile Char.isDigit)
    | r => ([], r)
  if whole.isEmpty && places.isEmpty then none
  else do
    let e ← exponent? rest
    let m ← natural? 10 (whole ++ places)
    Binary64.ofDecimal? negative m (e - places.length)

/-- Every underscore stands between two digits; `last` is the character before the text. -/
def separatesDigits (last : Char) : List Char → Bool
  | [] => last ≠ '_'
  | c :: cs =>
    (if c = '_' then last.isDigit else if last = '_' then c.isDigit else true) &&
      separatesDigits c cs

/-- A number. Underscores do not count; behind a point that begins the text they must stand between
digits. -/
def number? (s : String) : Option Scalar :=
  match s.toList with
  | [] => none
  | cs@(c :: _) =>
    let ds := cs.filter (· ≠ '_')
    if c = '.' then if separatesDigits ' ' cs then (decimal? ds).map float else none
    else if c.isDigit || c = '+' || c = '-' then
      ((integer? ds).map int).or (((decimal? ds).map float).or ((lateSigned? ds).map int))
    else none

/-- What plain text stands for. Text is a point in time only where `times` says so. -/
def ofPlain (times : Bool) (s : String) : Scalar :=
  match words.lookup s with
  | some v => v
  | none =>
    match if times then Timestamp.parse? s else none with
    | some t => timestamp t
    | none => (number? s).getD (text s)

/-! ### Tags -/

def shortTag (t : String) : String :=
  let long := "tag:yaml.org,2002:"
  if long.isPrefixOf t then "!!" ++ (t.drop long.length).toString else t

def tag : Scalar → String
  | null => "!!null"
  | bool _ => "!!bool"
  | int _ => "!!int"
  | float _ => "!!float"
  | timestamp _ => "!!timestamp"
  | text _ => "!!str"
  | bytes _ => "!!binary"

def ofBytes (b : ByteArray) : Scalar :=
  match String.fromUTF8? b with
  | some s => text s
  | none => bytes b.toList

/-- What a text with a tag stands for; nothing if it does not fit the tag. An integer fits the tag of
other numbers, unless it needs all 64 bits. Tags without a rule leave a text as it is. -/
def withTag? (t s : String) : Option Scalar :=
  if t = "!!binary" then (Base64.decode? s).map ofBytes
  else if ["!!bool", "!!int", "!!float", "!!null", "!!timestamp"].contains t then
    match ofPlain (t = "!!timestamp") s with
    | int n =>
      if t = "!!int" then some (int n)
      else if t = "!!float" && n < Nat.pow 2 63 then
        (Binary64.ofDecimal? (n < 0) n.natAbs 0).map float
      else none
    | v => if v.tag = t then some v else none
  else some (text s)

end Scalar

end TreeMachine.Yaml
