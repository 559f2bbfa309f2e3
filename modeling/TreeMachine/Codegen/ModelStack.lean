import TreeMachine.Types.Lookup

/-!
# The modeled operand stack

While code is emitted, the compiler knows the type of every entry of the operand stack, and whether
the entry is storage that something else holds.
-/

namespace TreeMachine

structure StackEntry where
  type : Option Ty
  /-- The value is existing storage: a slot, field, element, cell or constant. -/
  addressable : Bool := false
deriving DecidableEq, Repr, Inhabited

def StackEntry.text (U : Universe) (e : StackEntry) : String :=
  (if e.addressable then "&" else "") ++ U.nameOf e.type

/-- The modeled operand stack; the top is at the end. -/
structure ModelStack where
  entries : Array StackEntry := #[]
  max : Nat := 0
deriving DecidableEq, Repr, Inhabited

inductive StackFault where
  | pop
  | peek (n depth : Nat)
deriving DecidableEq, Repr

namespace ModelStack

def depth (m : ModelStack) : Nat := m.entries.size

def push (m : ModelStack) (e : StackEntry) : ModelStack :=
  let depth := m.entries.size + 1
  { entries := m.entries.push e, max := Nat.max m.max depth }

def pop (m : ModelStack) : Except StackFault (StackEntry × ModelStack) :=
  match m.entries.back? with
  | some e => .ok (e, { m with entries := m.entries.pop })
  | none => .error .pop

def peek (m : ModelStack) (n : Nat) : Except StackFault StackEntry :=
  if n < m.entries.size then .ok (m.entries.getD (m.entries.size - 1 - n) default)
  else .error (.peek n m.entries.size)

def dup (m : ModelStack) : Except StackFault ModelStack := do return m.push (← m.peek 0)

def replaceTop (m : ModelStack) (e : StackEntry) : Except StackFault ModelStack := do
  return (← m.pop).2.push e

def drop (m : ModelStack) (n : Nat) : ModelStack :=
  { m with entries := m.entries.shrink (m.entries.size - n) }

/-- Goes back to earlier entries; the greatest depth stays. -/
def restore (m : ModelStack) (entries : Array StackEntry) : ModelStack := { m with entries := entries }

end ModelStack

end TreeMachine
