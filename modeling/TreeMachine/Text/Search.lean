/-!
# Searching text
-/

namespace TreeMachine.Text

def occursIn (pattern : List Char) : List Char → Bool
  | [] => pattern.isEmpty
  | c :: cs => pattern.isPrefixOf (c :: cs) || occursIn pattern cs

def contains (s pattern : String) : Bool := occursIn pattern.toList s.toList

end TreeMachine.Text
