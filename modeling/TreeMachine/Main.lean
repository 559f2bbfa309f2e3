import TreeMachine.Console

/-!
# The program

Reads the options file, runs the command line and prints what it leaves behind.
-/

open TreeMachine

def readOptions (path : String) : IO OptionsSource := do
  try
    return .text (← IO.FS.readFile path)
  catch
    | .noFileOrDirectory .. => return .missing
    | _ => return .unreadable

def main (args : List String) : IO UInt32 := do
  let source ← readOptions Console.optionsFile
  let outcome := Console.run "exprvm" args source
  for line in outcome.out do
    IO.println line
  for line in outcome.err do
    IO.eprintln line
  return outcome.status.toUInt32
