import TreeMachine.Options.Decode

/-!
# Reading options

Options are read from the first document of a text, if there is one. A text that is missing or has no
document leaves every option at its default.
-/

namespace TreeMachine

inductive OptionsError where
  | unreadable
  | malformed (e : Yaml.Malformed)
  | undecodable (s : Options.Stop)
  | refused (rs : List Options.Refusal)
  | verifyWithoutDepths
deriving DecidableEq, Repr

namespace OptionsError

def summary : OptionsError → String
  | unreadable => "load options"
  | malformed _ | undecodable _ | refused _ => "parse options"
  | verifyWithoutDepths => "parse options: verify requires recordStackDepths"

def detail : OptionsError → String
  | malformed e => ": yaml: " ++ e.message
  | undecodable s => ": yaml: " ++ s.message
  | refused rs => ": yaml: unmarshal errors:" ++ String.join (rs.map fun r => "\n  " ++ r.message)
  | unreadable | verifyWithoutDepths => ""

def message (e : OptionsError) : String := e.summary ++ e.detail

end OptionsError

inductive OptionsSource where
  | missing
  | unreadable
  | text (s : String)
deriving DecidableEq, Repr

namespace Options

/-- Depths can only be compared if they are recorded. -/
def validate (o : Options) : Except OptionsError Options :=
  if o.verify && !o.recordDepths then .error .verifyWithoutDepths else .ok o

def parse (text : String) : Except OptionsError Options :=
  match Yaml.Document.parse text with
  | .error e => .error (.malformed e)
  | .ok none => .ok {}
  | .ok (some doc) =>
    match ofDocument doc with
    | .error s => .error (.undecodable s)
    | .ok (o, refusals) =>
      if refusals.isEmpty then o.validate else .error (.refused refusals.toList)

def load : OptionsSource → Except OptionsError Options
  | .missing => .ok {}
  | .unreadable => .error .unreadable
  | .text s => parse s

end Options

end TreeMachine
