import TreeMachine.Text.Printable

/-!
# Quoted text

Text between double quotes in which every character is visible: quotes and backslashes are escaped,
common controls have a letter, and other characters that are not printable are given by number.
-/

namespace TreeMachine.Text

def hexDigit (n : Nat) : Char := "0123456789abcdef".toList.getD n '0'

def hex (k n : Nat) : List Char :=
  (List.range k).map fun i => hexDigit (n / Nat.pow 16 (k - 1 - i) % 16)

def quoteChar (c : Char) : List Char :=
  match c with
  | '"' => ['\\', '"']
  | '\\' => ['\\', '\\']
  | '\n' => ['\\', 'n']
  | '\r' => ['\\', 'r']
  | '\t' => ['\\', 't']
  | _ =>
    let n := c.toNat
    if isPrintable c then [c]
    else if n = 7 then ['\\', 'a']
    else if n = 8 then ['\\', 'b']
    else if n = 11 then ['\\', 'v']
    else if n = 12 then ['\\', 'f']
    else if n < 0x20 || n = 0x7f then '\\' :: 'x' :: hex 2 n
    else if n < 0x10000 then '\\' :: 'u' :: hex 4 n
    else '\\' :: 'U' :: hex 8 n

def quote (s : String) : String :=
  String.ofList ('"' :: s.toList.flatMap quoteChar ++ ['"'])

end TreeMachine.Text
