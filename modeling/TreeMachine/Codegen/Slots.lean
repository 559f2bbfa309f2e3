import TreeMachine.Types.Basic

/-!
# Slots of a frame

Slots are handed out per scope. The outermost scope is that of the function and is never released;
slots of a released scope are handed out again, if reuse is on, where the type and the way of capture
are the same.
-/

namespace TreeMachine

inductive CaptureMode where
  | none
  /-- Copied into each closure when it is made. -/
  | byValue
  /-- Held in a cell that closures share. -/
  | byReference
deriving DecidableEq, Repr, Inhabited

namespace CaptureMode

def name : CaptureMode → String
  | none => "none"
  | byValue => "byvalue"
  | byReference => "byref"

def ofNumber : Nat → CaptureMode
  | 1 => byValue
  | 2 => byReference
  | _ => none

end CaptureMode

structure Slot where
  type : Option Ty
  capture : CaptureMode
  /-- The scope that owns the slot or owned it last. -/
  scope : Int
  live : Bool
deriving DecidableEq, Repr, Inhabited

structure Slots where
  slots : Array Slot := #[]
  inner : List Int := []
  outer : Int := 0
  next : Int := 1
  reuse : Bool := true
deriving DecidableEq, Repr, Inhabited

inductive SlotError where
  | closedScope (name : String) (scope : Int)
  | notInnermost (scope innermost : Int)
  | tooMany
deriving DecidableEq, Repr

namespace Slots

/-- The number of slots that a one-byte operand tells apart. -/
def limit : Nat := 256

def start (reuse : Bool) : Slots := { reuse := reuse }

def count (a : Slots) : Nat := a.slots.size

def openScope (a : Slots) : Int × Slots :=
  (a.next, { a with inner := a.next :: a.inner, next := a.next + 1 })

def innermost (a : Slots) : Int := a.inner.headD a.outer

def isOpen (a : Slots) (scope : Int) : Bool := scope = a.outer || a.inner.contains scope

def allocate (a : Slots) (t : Option Ty) (name : String) (capture : CaptureMode) (scope : Int) :
    Except SlotError (Nat × Slots) :=
  if !a.isOpen scope then .error (.closedScope name scope)
  else
    let slot : Slot := { type := t, capture := capture, scope := scope, live := true }
    let free :=
      if a.reuse then a.slots.findIdx? fun s => !s.live && s.type = t && s.capture = capture
      else none
    match free with
    | some i => .ok (i, { a with slots := a.slots.setIfInBounds i slot })
    | none =>
      if limit ≤ a.slots.size then .error .tooMany
      else .ok (a.slots.size, { a with slots := a.slots.push slot })

def release (a : Slots) (scope : Int) : Except SlotError Slots :=
  match a.inner with
  | s :: rest =>
    if s = scope then
      .ok { a with
        inner := rest
        slots := a.slots.map fun t => if t.scope = scope then { t with live := false } else t }
    else .error (.notInnermost scope s)
  | [] => .error (.notInnermost scope a.outer)

end Slots

end TreeMachine
