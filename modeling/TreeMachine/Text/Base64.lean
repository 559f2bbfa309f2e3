/-!
# Bytes written in base 64

Four characters stand for three bytes; at the end, two characters and `==` for one byte, or three and
`=` for two. Line breaks do not count.
-/

namespace TreeMachine.Base64

def value? (c : Char) : Option Nat :=
  if 'A' ≤ c && c ≤ 'Z' then some (c.toNat - 65)
  else if 'a' ≤ c && c ≤ 'z' then some (c.toNat - 71)
  else if c.isDigit then some (c.toNat + 4)
  else if c = '+' then some 62
  else if c = '/' then some 63
  else none

def decodeGroups? (before : ByteArray) : List Char → Option ByteArray
  | [] => some before
  | [a, b, '=', '='] => do
    let n := (← value? a) * 64 + (← value? b)
    return before.push (n / 16).toUInt8
  | [a, b, c, '='] => do
    let n := ((← value? a) * 64 + (← value? b)) * 64 + (← value? c)
    return (before.push (n / 1024).toUInt8).push (n / 4).toUInt8
  | a :: b :: c :: d :: rest => do
    let n := (((← value? a) * 64 + (← value? b)) * 64 + (← value? c)) * 64 + (← value? d)
    decodeGroups?
      (((before.push (n / 65536).toUInt8).push (n / 256).toUInt8).push n.toUInt8) rest
  | _ => none

def decode? (s : String) : Option ByteArray :=
  decodeGroups? ByteArray.empty (s.toList.filter fun c => c ≠ '\n' && c ≠ '\r')

end TreeMachine.Base64
