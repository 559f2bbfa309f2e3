import TreeMachine.Code.Function

/-!
# Stack effects

How many values an instruction removes from the operand stack and how many it adds. A call depends on
the method it names; an invocation and an array of given elements depend on their operands.
-/

namespace TreeMachine

structure Effect where
  pop : Nat
  push : Nat
deriving DecidableEq, Repr

inductive EffectError where
  | outOfRange (op : Opcode) (index : Nat)
  | notMethod (op : Opcode) (index : Nat)
  | noOperands (op : Opcode)
deriving DecidableEq, Repr

def EffectError.message : EffectError → String
  | outOfRange op i => s!"{op.name}: constant {i} out of range"
  | notMethod op i => s!"{op.name}: constant {i} is not a method"
  | noOperands op => s!"{op.name}: missing operands"

namespace Effect

def ofCall (m : Method) : Effect where
  pop := m.params.length + if m.isStatic then 0 else 1
  push := if m.result.isSome then 1 else 0

def of (op : Opcode) (operands : List Nat) (constants : Array Constant) : Except EffectError Effect :=
  match op, operands with
  | .call, i :: _ | .callVirtual, i :: _ | .callInterface, i :: _ =>
    match constants[i]? with
    | some (.method m) => .ok (ofCall m)
    | some _ => .error (.notMethod op i)
    | none => .error (.outOfRange op i)
  | .invoke, args :: results :: _ => .ok ⟨args + 1, results⟩
  | .arrayOf, _ :: items :: _ => .ok ⟨items, 1⟩
  | _, _ =>
    match op.effect with
    | (some pop, some push) => .ok ⟨pop, push⟩
    | _ => .error (.noOperands op)

/-- The effect of an instruction with operands that need not be places or counts: what is removed and
what is added. -/
def ofIntegers (op : Opcode) (operands : List Int) (constants : Array Constant) : Except EffectError (Int × Int) :=
  match op, operands with
  | .invoke, args :: results :: _ => .ok (args + 1, results)
  | .arrayOf, _ :: items :: _ => .ok (items, 1)
  | _, _ => do
    if operands.head?.any (· < 0) && op.effect.1.isNone then .error (.noOperands op)
    else
      let effect ← of op (operands.map Int.toNat) constants
      return (effect.pop, effect.push)

end Effect

end TreeMachine
