import TreeMachine.Host.Basic

/-!
# Scripts

A script is a host routine written down as data: it reads and writes fields of the receiver, answers
with values, notes lines in the trace, fails, or calls a delegate back.
-/

namespace TreeMachine

inductive ScriptText where
  | literal (s : String)
  | field (name : String)
  | arg (index : Int)
deriving Repr

/-- Host routines as data. `arg` is the position of an argument; a routine that asks for an argument
that is not there ends the execution. -/
inductive Script where
  | get (field : String)
  | set (field : String) (arg : Int)
  | add (field : String) (arg : Int)
  /-- Adds one to an integer field and answers with the sum. -/
  | inc (field : String)
  | const (v : Value)
  | arg (arg : Int)
  | self
  | fail (s : Option Sentinel) (message : String)
  | panic (message : String)
  | text (parts : List ScriptText)
  | sum (wide : Bool)
  | log (label : String) (next : Script)
  | seq (parts : List Script)
  | invoke (arg : Int) (args : List Value)

namespace Script

def argument (args : List Value) (i : Int) : Exec Value :=
  Exec.getSome (i.toNat?.bind (args[·]?))

def fieldIndex (U : Universe) (self : Value) (name : String) : Exec Nat := do
  let s ← getThe Store
  let t ← Exec.getSome (s.dynamicType self)
  let f ← Exec.getSome (U.field? t name)
  return f.index

def readField (U : Universe) (self : Value) (name : String) : Exec Value := do
  let i ← fieldIndex U self name
  Exec.getSome ((← getThe Store).fields self)[i]?

def writeField (U : Universe) (self : Value) (name : String) (v : Value) : Exec Unit := do
  let i ← fieldIndex U self name
  if i < ((← getThe Store).fields self).size then modify fun s => s.setField self i v
  else Exec.corrupt

def integer (wide : Bool) (n : Int64) : Value := if wide then .ofInt64 n else .ofInt32 n

def addTo (U : Universe) (self : Value) (field : String) (n : Int64) : Exec Value := do
  let v ← readField U self field
  let sum := integer (v.type = some .int64) (v.asInt U + n)
  writeField U self field sum
  return sum

def partText (U : Universe) (self : Value) (args : List Value) : ScriptText → Exec String
  | .literal s => return s
  | .field name => do
    let v ← readField U self name
    return (← getThe Store).text U v
  | .arg i => do
    let v ← argument args i
    return (← getThe Store).text U v

mutual

def runOn (U : Universe) (call : Caller) (recv : Value) (self : Value) (args : List Value) :
    Script → Exec Value
  | get field => readField U self field
  | set field i => do
    let v ← argument args i
    writeField U self field (← Exec.clone v)
    return .nil
  | add field i => do
    let v ← argument args i
    let _ ← addTo U self field (v.asInt U)
    return .nil
  | inc field => addTo U self field 1
  | const v => return v
  | arg i => argument args i
  | .self => return recv
  | fail s message => Exec.fail (.host s message)
  | panic message => Exec.panic (.host message)
  | text parts => do
    let texts ← parts.mapM (partText U self args)
    return .ofString (String.join texts)
  | sum wide => return integer wide ((args.map fun v => v.asInt U).sum)
  | log label next => do
    modify fun s => s.note label
    runOn U call recv self args next
  | seq parts => runAll U call recv self args {} parts
  | invoke i values => do
    let v ← argument args i
    let d ← Exec.getSome ((← getThe Store).delegate? v)
    call d values

/-- Runs scripts in order; answers as the last one does, and with the untyped null if there is none. -/
def runAll (U : Universe) (call : Caller) (recv : Value) (self : Value) (args : List Value)
    (last : Value) : List Script → Exec Value
  | [] => return last
  | p :: ps => do
    let v ← runOn U call recv self args p
    runAll U call recv self args v ps

end

def routine (p : Script) : Routine := fun U call recv args => do
  p.runOn U call recv (← Exec.unboxed recv) args

end Script

end TreeMachine
