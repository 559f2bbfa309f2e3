/-!
# What is wrong with a text

Why a text cannot be read, with the line where that shows. Lines count from zero while a text is
read; a message gives none for the first one.
-/

namespace TreeMachine.Yaml

inductive Problem where
  | controlCharacter
  | missingColon
  | tooDeep (limit : Nat)
  | noToken
  | strayEntry
  | strayKey
  | strayValue
  | unknownDirective
  | missingDirectiveName
  | directiveNameCharacter
  | missingLineEnd
  | missingVersionDot
  | missingVersionNumber
  | longVersionNumber
  | missingBlank
  | missingGap
  | missingName
  | unclosedTag
  | missingTagMark
  | missingTagText
  | missingOctet
  | firstOctet
  | laterOctet
  | zeroIndentation
  | tabIndentation
  | tabInText
  | documentMark
  | endOfStream
  | unknownEscape
  | missingDigits
  | invalidCode
  | missingDocumentStart
  | secondVersion
  | otherVersion
  | secondHandle
  | undefinedHandle
  | missingContent
  | missingDash
  | missingKey
  | missingComma (closing : Char)
  | unknownAnchor (name : String)
deriving DecidableEq, Repr, Inhabited

def Problem.message : Problem → String
  | controlCharacter => "control characters are not allowed"
  | missingColon => "could not find expected ':'"
  | tooDeep limit => s!"exceeded max depth of {limit}"
  | noToken => "found character that cannot start any token"
  | strayEntry => "block sequence entries are not allowed in this context"
  | strayKey => "mapping keys are not allowed in this context"
  | strayValue => "mapping values are not allowed in this context"
  | unknownDirective => "found unknown directive name"
  | missingDirectiveName => "could not find expected directive name"
  | directiveNameCharacter => "found unexpected non-alphabetical character"
  | missingLineEnd => "did not find expected comment or line break"
  | missingVersionDot => "did not find expected digit or '.' character"
  | missingVersionNumber => "did not find expected version number"
  | longVersionNumber => "found extremely long version number"
  | missingBlank => "did not find expected whitespace"
  | missingGap => "did not find expected whitespace or line break"
  | missingName => "did not find expected alphabetic or numeric character"
  | unclosedTag => "did not find the expected '>'"
  | missingTagMark => "did not find expected '!'"
  | missingTagText => "did not find expected tag URI"
  | missingOctet => "did not find URI escaped octet"
  | firstOctet => "found an incorrect leading UTF-8 octet"
  | laterOctet => "found an incorrect trailing UTF-8 octet"
  | zeroIndentation => "found an indentation indicator equal to 0"
  | tabIndentation => "found a tab character where an indentation space is expected"
  | tabInText => "found a tab character that violates indentation"
  | documentMark => "found unexpected document indicator"
  | endOfStream => "found unexpected end of stream"
  | unknownEscape => "found unknown escape character"
  | missingDigits => "did not find expected hexdecimal number"
  | invalidCode => "found invalid Unicode character escape code"
  | missingDocumentStart => "did not find expected <document start>"
  | secondVersion => "found duplicate %YAML directive"
  | otherVersion => "found incompatible YAML document"
  | secondHandle => "found duplicate %TAG directive"
  | undefinedHandle => "found undefined tag handle"
  | missingContent => "did not find expected node content"
  | missingDash => "did not find expected '-' indicator"
  | missingKey => "did not find expected key"
  | missingComma closing => "did not find expected ',' or '" ++ closing.toString ++ "'"
  | unknownAnchor name => "unknown anchor '" ++ name ++ "' referenced"

/-- A problem, and the line that a message gives for it; none if that is zero. -/
structure Malformed where
  problem : Problem
  line : Nat := 0
deriving DecidableEq, Repr, Inhabited

namespace Malformed

/-- A problem in what starts at line `start` and is noticed at line `here`: the start counts, unless it
is on the first line. -/
def of (problem : Problem) (start here : Nat) : Malformed :=
  { problem, line := if start ≠ 0 then start else here }

/-- A problem with the characters of a lexeme. Their lines are given as people count them. -/
def inLexeme (problem : Problem) (start here : Nat) : Malformed :=
  let e := of problem start here
  { e with line := if e.line ≠ 0 then e.line + 1 else 0 }

def message (e : Malformed) : String :=
  (if e.line = 0 then "" else s!"line {e.line}: ") ++ e.problem.message

end Malformed

end TreeMachine.Yaml
