import TreeMachine.Code.Listing
import TreeMachine.Options.Source
import TreeMachine.Scenario.Catalogue
import TreeMachine.Strategy
import TreeMachine.Tree.Printer

/-!
# The command line

The commands list scenarios, print their code, and check them. Everything here is a function from the
arguments and the options that were found to an exit status and the lines to print.
-/

namespace TreeMachine

structure Outcome where
  status : Nat := 0
  out : List String := []
  err : List String := []
deriving DecidableEq, Repr, Inhabited

structure Tally where
  passed : Nat := 0
  failed : Nat := 0
  declined : Nat := 0
deriving DecidableEq, Repr, Inhabited

inductive Verdict where
  | pass
  | decline (reason : String)
  | fail (reason : String)
deriving DecidableEq, Repr

def Verdict.line (label : String) : Verdict → String
  | pass => "PASS " ++ label
  | decline reason => s!"SKIP {label} ({reason})"
  | fail reason => s!"FAIL {label}: {reason}"

namespace Tally

def add (t : Tally) : Verdict → Tally
  | .pass => { t with passed := t.passed + 1 }
  | .decline _ => { t with declined := t.declined + 1 }
  | .fail _ => { t with failed := t.failed + 1 }

def summary (t : Tally) : String :=
  s!"{t.passed} passed, {t.failed} failed, {t.declined} declined"

end Tally

namespace Console

def optionsFile : String := "exprvm.yaml"

def usage (program : String) : List String :=
  [ s!"Usage: {program} <command> [arguments]",
    "",
    "Commands:",
    "  check [-backend vm|treewalk|fast] [scenario...]  run scenarios and verify results",
    "  disasm <scenario>                                print the compiled code of a scenario",
    "  list                                             list scenario names",
    "  help                                             show this message",
    "",
    s!"Options are read from {optionsFile} when present." ]

def stop (status : Nat) (reason : String) : Outcome := { status := status, err := ["Error: " ++ reason] }

def noScenario (name : String) : String := "no scenario " ++ Text.quote name

def list : Outcome where
  out := Scenario.all.map fun c => if c.declined then c.name ++ " (interpreted)" else c.name

/-! ### Listings -/

def listing (options : Options) (c : Scenario) : Outcome :=
  match c.build with
  | .error e => stop 1 (e.message Scenario.types)
  | .ok (a, b) =>
    let U := b.types
    let tree := "// " ++ a.lambda.toExpr.format U b.store
    match Compiler.answer U b.store options (some a.lambda) a.shape with
    | .error e => { status := 1, out := [tree], err := ["Compilation error: " ++ e.message U] }
    | .ok art => { out := tree :: (Listing.function U b.store art.image art.main).getD [] }

def disasm (program : String) (options : Options) : List String → Outcome
  | [name] =>
    match Scenario.find? name with
    | some c => listing options c
    | none => stop 1 (noScenario name)
  | _ => { status := 2, err := [s!"Usage: {program} disasm <scenario>"] }

/-! ### Checks -/

def abortText (U : Universe) : Abort → String
  | .error e => e.message U
  | .panic p => p.message
  | .endless => ""

def verdict (st : Strategy) (options : Options) (c : Scenario) : Verdict :=
  match c.build with
  | .error e => .fail (e.message Scenario.types)
  | .ok (a, b) =>
    let U := b.types
    match st.prepare U b.store options (some a.lambda) a.shape with
    | .error e =>
      if e.isUnsupported && c.declined then .decline (e.message U) else .fail (e.message U)
    | .ok f =>
      match f.call { Scenario.host with types := U } a.args b.store with
      | .error e _ => .fail (abortText U e)
      | .ok got s =>
        match a.expectation.mismatch? U s got with
        | some reason => .fail reason
        | none => .pass

def report (st : Strategy) (options : Options) (cases : List Scenario) : Outcome :=
  let verdicts := cases.map fun c => (s!"{c.name} [{st.name}]", verdict st options c)
  let tally := verdicts.foldl (fun t v => t.add v.2) ({} : Tally)
  { status := if tally.failed = 0 then 0 else 1
    out := (verdicts.map fun (label, v) => v.line label) ++ [tally.summary] }

structure CheckArgs where
  strategy : String := "fast"
  names : List String := []
deriving DecidableEq, Repr

def flagValue? (arg : String) : Option String :=
  if "-backend=".isPrefixOf arg || "--backend=".isPrefixOf arg then
    some (String.ofList ((arg.toList.dropWhile (· ≠ '=')).drop 1))
  else none

def parseCheck (c : CheckArgs) : List String → Except String CheckArgs
  | [] => .ok { c with names := c.names.reverse }
  | arg :: rest =>
    if arg = "-backend" || arg = "--backend" then
      match rest with
      | [] => .error (arg ++ " needs a value")
      | name :: rest => parseCheck { c with strategy := name } rest
    else
      match flagValue? arg with
      | some name => parseCheck { c with strategy := name } rest
      | none =>
        if "-".isPrefixOf arg then .error ("unknown flag " ++ arg)
        else parseCheck { c with names := arg :: c.names } rest

def select : List String → Except String (List Scenario)
  | [] => .ok Scenario.all
  | names =>
    names.mapM fun n =>
      match Scenario.find? n with
      | some c => .ok c
      | none => .error (noScenario n)

def check (options : Options) (args : List String) : Outcome :=
  match parseCheck {} args with
  | .error e => stop 2 e
  | .ok c =>
    match Strategy.ofName? c.strategy with
    | none => stop 2 ((PrepareError.unknownStrategy c.strategy).message {})
    | some st =>
      match select c.names with
      | .error e => stop 1 e
      | .ok cases => report st options cases

/-! ### Commands -/

def command (program : String) (options : Options) : List String → Outcome
  | "help" :: _ | "-help" :: _ | "--help" :: _ => { err := usage program }
  | "list" :: _ => list
  | "disasm" :: args => disasm program options args
  | "check" :: args => check options args
  | _ => { status := 2, err := usage program }

def run (program : String) (args : List String) (source : OptionsSource) : Outcome :=
  match Options.load source with
  | .error e => { status := 1, err := [e.message] }
  | .ok options => command program options args

end Console

end TreeMachine
