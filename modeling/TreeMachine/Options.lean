/-!
# Options

What a host can choose about compiling and running trees.
-/

namespace TreeMachine

structure Options where
  /-- Copy captured variables that are never written after their capture, instead of sharing a cell. -/
  inlineCaptures : Bool := true
  /-- Let sibling scopes share slots. -/
  reuseSlots : Bool := true
  /-- Record the depth of the operand stack before every instruction. -/
  recordDepths : Bool := false
  /-- Compare the recorded depths with the operand stack while running. -/
  verify : Bool := false
  verbosity : Int := 0
deriving DecidableEq, Repr, Inhabited

def Options.debug : Options := { recordDepths := true, verify := true }

end TreeMachine
