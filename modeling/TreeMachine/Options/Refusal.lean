import TreeMachine.Text.Quoted

/-!
# What is wrong with a document of options

A refusal concerns one part of a document, and the rest of the document is still read. Other problems
break reading off.
-/

namespace TreeMachine

namespace Options

inductive Kind where
  | bool
  | int
  | text
  | options
deriving DecidableEq, Repr, Inhabited

def Kind.name : Kind → String
  | bool => "bool"
  | int => "int"
  | text => "string"
  | options => "config.Options"

/-- Why a part of a document is not used. Lines count from zero. -/
inductive Refusal where
  | wrongKind (line : Nat) (tag text : String) (wanted : Kind)
  | repeatedKey (line : Nat) (key : String) (first : Nat)
  | repeatedOption (line : Nat) (key : String)
deriving DecidableEq, Repr, Inhabited

namespace Refusal

/-- The first `n` bytes of a text. Bytes that are cut out of a character show as replacement
characters. -/
def firstBytes : (n : Nat) → List Char → List Char
  | _, [] => []
  | n, c :: cs =>
    if c.utf8Size ≤ n then c :: firstBytes (n - c.utf8Size) cs
    else List.replicate n (Char.ofNat 0xfffd)

def shorten (s : String) : String :=
  if 10 < s.utf8ByteSize then String.ofList (firstBytes 7 s.toList) ++ "..." else s

def shown (tag text : String) : String :=
  if tag = "!!seq" || tag = "!!map" then text else " \x60" ++ shorten text ++ "\x60"

def message : Refusal → String
  | wrongKind line tag text wanted =>
    s!"line {line + 1}: cannot unmarshal " ++ tag ++ shown tag text ++ " into " ++ wanted.name
  | repeatedKey line key first =>
    s!"line {line + 1}: mapping key " ++ Text.quote key ++ s!" already defined at line {first + 1}"
  | repeatedOption line key =>
    s!"line {line + 1}: field " ++ key ++ " already set in type " ++ Kind.options.name

end Refusal

inductive Stop where
  | misfit (found text tag : String)
  | notBytes
  | notMergeable
  | cycle (name : String)
  | manyAliases
  | collectionKey
  | unusableKey
deriving DecidableEq, Repr

def Stop.message : Stop → String
  | misfit found text tag => "cannot decode " ++ found ++ " \x60" ++ text ++ "\x60 as a " ++ tag
  | notBytes => "!!binary value contains invalid base64 data"
  | notMergeable => "map merge requires map or sequence of maps as the value"
  | cycle name => "anchor '" ++ name ++ "' value contains itself"
  | manyAliases => "document contains excessive aliasing"
  | collectionKey | unusableKey => "invalid map key"

end Options

end TreeMachine
