import TreeMachine.Types.Basic

/-!
# Integers of a width

Integers are held in 64 bits. A 32-bit integer is held sign-extended; an operation on 32-bit
integers is carried out in 64 bits and wrapped afterwards.
-/

namespace TreeMachine

def wrap32 (n : Int64) : Int64 := n.toInt32.toInt64

/-- Wraps to the width of a primitive: only `int32` is narrower than a word. -/
def wrapTo (p : Option Primitive) (n : Int64) : Int64 :=
  if p = some .int32 then wrap32 n else n

@[simp] theorem wrapTo_int32 (n : Int64) : wrapTo (some .int32) n = wrap32 n := rfl

@[simp] theorem wrapTo_int64 (n : Int64) : wrapTo (some .int64) n = n := rfl

@[simp] theorem wrap32_wrap32 (n : Int64) : wrap32 (wrap32 n) = wrap32 n := by
  simp [wrap32]

theorem wrapTo_wrapTo (p : Option Primitive) (n : Int64) : wrapTo p (wrapTo p n) = wrapTo p n := by
  unfold wrapTo
  split
  · exact wrap32_wrap32 n
  · rfl

end TreeMachine
