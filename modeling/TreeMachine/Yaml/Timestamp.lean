/-!
# Points in time

A date, or a date with a time of day. Day, month and the parts of the time have one or two digits; a
time behind a `T` has a zone, one behind blanks has none. Points in time are told apart by how they are
written.
-/

namespace TreeMachine.Yaml

structure Timestamp where
  year : Nat
  month : Nat
  day : Nat
  hour : Nat := 0
  minute : Nat := 0
  second : Nat := 0
  fraction : List Char := []
  /-- Minutes ahead of the standard zone; none if no such number is written. -/
  zone : Option Int := none
deriving DecidableEq, Repr, Inhabited

namespace Timestamp

def digit (c : Char) : Nat := c.toNat - 48

def short? (limit : Nat) : List Char → Option (Nat × List Char)
  | c :: d :: rest =>
    if c.isDigit then
      let (n, rest) :=
        if d.isDigit then (digit c * 10 + digit d, rest) else (digit c, d :: rest)
      if n ≤ limit then some (n, rest) else none
    else none
  | [c] => if c.isDigit && digit c ≤ limit then some (digit c, []) else none
  | [] => none

def after? (c : Char) : List Char → Option (List Char)
  | d :: rest => if d = c then some rest else none
  | [] => none

def daysIn (month year : Nat) : Nat :=
  if month = 2 then if year % 4 = 0 && (year % 100 ≠ 0 || year % 400 = 0) then 29 else 28
  else if [4, 6, 9, 11].contains month then 30
  else 31

def date? (cs : List Char) : Option (Timestamp × List Char) := do
  let ys := cs.takeWhile Char.isDigit
  if ys.length ≠ 4 then none
  else
    let rest ← after? '-' (cs.drop 4)
    let (month, rest) ← short? 12 rest
    let (day, rest) ← short? 31 (← after? '-' rest)
    let year := ys.foldl (fun n c => n * 10 + digit c) 0
    if 1 ≤ month && 1 ≤ day && day ≤ daysIn month year then some ({ year, month, day }, rest)
    else none

def digitsBehind (cs : List Char) : List Char × List Char :=
  match cs with
  | p :: rest =>
    let ds := rest.takeWhile Char.isDigit
    if (p = '.' || p = ',') && !ds.isEmpty then (ds, rest.drop ds.length) else ([], cs)
  | [] => ([], [])

def time? (t : Timestamp) (cs : List Char) : Option (Timestamp × List Char) := do
  let (hour, rest) ← short? 23 cs
  let (minute, rest) ← short? 59 (← after? ':' rest)
  let (second, rest) ← short? 59 (← after? ':' rest)
  let (digits, rest) := digitsBehind rest
  return ({ t with hour, minute, second, fraction := trim (digits.take 9) }, rest)
where
  trim (ds : List Char) : List Char := (ds.reverse.dropWhile (· = '0')).reverse

/-- The two are the same: written alike, in a zone that is known. The zones that are known are the
standard one, and those a whole number of hours away that are in use. -/
def same (s t : Timestamp) : Bool := s = t && s.zone.all isKnown
where
  isKnown (minutes : Int) : Bool := minutes % 60 = 0 && -12 * 60 ≤ minutes && minutes ≤ 14 * 60

def zone? : List Char → Option (Option Int)
  | ['Z'] => some none
  | [sign, a, b, ':', c, d] =>
    if [a, b, c, d].all Char.isDigit && (sign = '+' || sign = '-') then
      let hours := digit a * 10 + digit b
      let minutes := digit c * 10 + digit d
      if hours ≤ 24 && minutes ≤ 60 then
        let n : Int := hours * 60 + minutes
        some (some (if sign = '-' then -n else n))
      else none
    else none
  | _ => none

def parse? (s : String) : Option Timestamp := do
  let (t, rest) ← date? s.toList
  match rest with
  | [] => return t
  | c :: rest =>
    if c = 'T' || c = 't' then
      let (t, rest) ← time? t rest
      return { t with zone := ← zone? rest }
    else if c = ' ' then
      let (t, rest) ← time? t (rest.dropWhile (· = ' '))
      if rest.isEmpty then return t else none
    else none

end Timestamp

end TreeMachine.Yaml
