import TreeMachine.Callable
import TreeMachine.Codegen.Compile

/-!
# Strategies

A strategy turns a tree and a call shape into something to call: it compiles the tree, walks it, or
walks what the compiler declines.
-/

namespace TreeMachine

inductive Strategy where
  | compiled
  | walked
  | fast
deriving DecidableEq, Repr

inductive PrepareError where
  | compile (e : CompileFailure)
  | bind (c : Cause)
  | unknownStrategy (name : String)
deriving DecidableEq, Repr

namespace PrepareError

def isUnsupported : PrepareError → Bool
  | compile e => e.isUnsupported
  | _ => false

def message (U : Universe) : PrepareError → String
  | compile e => e.message U
  | bind c => c.message U
  | unknownStrategy name => "unknown backend " ++ Text.quote name

end PrepareError

namespace Strategy

def ofName? : String → Option Strategy
  | "vm" => some compiled
  | "treewalk" => some walked
  | "fast" => some fast
  | _ => none

def name : Strategy → String
  | compiled => "vm"
  | walked => "treewalk"
  | fast => "fast"

def walk (U : Universe) (root : Option Lambda) (shape : Shape) (maxDepth : Int) : Except PrepareError Program :=
  match Program.bind U root shape maxDepth with
  | .ok p => .ok p
  | .error c => .error (.bind c)

/-- What to call after the compiler is done: the artifact, or what to do where it declined. A broken
compilation is never covered up. -/
def orElse {α β : Type} (compiled : Except CompileFailure α) (found : α → β)
    (declined : Unit → Except PrepareError β) : Except PrepareError β :=
  match compiled with
  | .ok a => .ok (found a)
  | .error e => if e.isUnsupported then declined () else .error (.compile e)

def orWalk (U : Universe) (compiled : Except CompileFailure Artifact) (root : Option Lambda)
    (shape : Shape) : Except PrepareError Callable :=
  orElse compiled .artifact fun _ => do
    return .program (← walk U root shape Program.defaultDepth)

def orNothing (compiled : Except CompileFailure Artifact) : Except PrepareError (Option Callable) :=
  orElse compiled (fun a => some (.artifact a)) fun _ => .ok none

def prepare (st : Strategy) (U : Universe) (s : Store) (options : Options) (root : Option Lambda)
    (shape : Shape) : Except PrepareError Callable :=
  match st with
  | compiled =>
    match Compiler.answer U s options root shape with
    | .ok a => .ok (.artifact a)
    | .error e => .error (.compile e)
  | walked => do return .program (← walk U root shape Program.defaultDepth)
  | fast => orWalk U (Compiler.answer U s options root shape) root shape

end Strategy

end TreeMachine
