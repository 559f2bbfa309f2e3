import TreeMachine.Host.Basic

/-!
# Frames

A frame is one ongoing call: a closure, the offset of the next instruction, the slots and an operand
stack of its own.
-/

namespace TreeMachine

structure Frame where
  closure : Closure
  ip : Nat := 0
  /-- The operand stack; the top is at the end. -/
  stack : Array Value := #[]
  locals : Array Value := #[]
deriving Inhabited

namespace Frame

def enter (c : Closure) (args : List Value) : Frame where
  closure := c
  locals :=
    let slots := c.function.locals.toNat
    ((args.take slots) ++ List.replicate (slots - args.length) ({} : Value)).toArray

def push (f : Frame) (v : Value) : Frame := { f with stack := f.stack.push v }

def pop (f : Frame) : Exec (Value × Frame) :=
  match f.stack.back? with
  | some v => return (v, { f with stack := f.stack.pop })
  | none => Exec.panic .stackUnderflow

def peek (f : Frame) (n : Nat) : Exec Value :=
  match f.stack[f.stack.size - 1 - n]? with
  | some v => if n < f.stack.size then return v else Exec.panic .stackUnderflow
  | none => Exec.panic .stackUnderflow

def popN (f : Frame) (n : Nat) : Exec (List Value × Frame) :=
  if n ≤ f.stack.size then
    let rest := f.stack.size - n
    return ((f.stack.extract rest f.stack.size).toList, { f with stack := f.stack.shrink rest })
  else Exec.panic .stackUnderflow

def local? (f : Frame) (slot : Nat) : Exec Value := Exec.getSome f.locals[slot]?

def setLocal (f : Frame) (slot : Nat) (v : Value) : Exec Frame :=
  if slot < f.locals.size then return { f with locals := f.locals.setIfInBounds slot v }
  else Exec.corrupt

def free? (f : Frame) (index : Nat) : Exec Value := Exec.getSome f.closure.free[index]?

end Frame

end TreeMachine
