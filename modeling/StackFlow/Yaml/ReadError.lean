import StackFlow.Text
import StackFlow.Yaml.Cursor

/-!
# Faults of documents

What can be wrong with the form of a document, and the line that a report names; and what does not
fit the type that a document is read into.
-/

namespace StackFlow.Yaml

/-- What is wrong with the form of a document. -/
inductive Problem where
  | controlCharacter
  | noToken
  | missingColon
  | entryNotAllowed
  | keyNotAllowed
  | valueNotAllowed
  | tooDeepFlow
  | tooDeepBlock
  | unknownDirective
  | noDirectiveName
  | badDirectiveName
  | directiveEnd
  | noVersion
  | longVersion
  | versionDot
  | badName
  | tagMark
  | tagHandle
  | tagUri
  | tagEscape
  | tagLead
  | tagTrail
  | tagSpace
  | tagEnd
  | zeroIndent
  | headerEnd
  | indentTab
  | plainTab
  | quotedDocument
  | quotedEnd
  | unknownEscape
  | escapeDigit
  | escapeCode
  | duplicateVersion
  | otherVersion
  | duplicateTagDirective
  | noDocumentStart
  | undefinedHandle
  | noContent
  | noEntry
  | noKey
  | noFlowSequenceEnd
  | noFlowMappingEnd
  | unknownAnchor (name : String)
  | selfAnchor (name : String)
  | badBinary
  | mergeValue
  | wrongTag (found value wanted : String)
  deriving DecidableEq

/-- The text of a problem. -/
def Problem.message : Problem → String
  | .controlCharacter => "control characters are not allowed"
  | .noToken => "found character that cannot start any token"
  | .missingColon => "could not find expected ':'"
  | .entryNotAllowed => "block sequence entries are not allowed in this context"
  | .keyNotAllowed => "mapping keys are not allowed in this context"
  | .valueNotAllowed => "mapping values are not allowed in this context"
  | .tooDeepFlow => "exceeded max depth of 10000"
  | .tooDeepBlock => "exceeded max depth of 10000"
  | .unknownDirective => "found unknown directive name"
  | .noDirectiveName => "could not find expected directive name"
  | .badDirectiveName => "found unexpected non-alphabetical character"
  | .directiveEnd => "did not find expected comment or line break"
  | .noVersion => "did not find expected version number"
  | .longVersion => "found extremely long version number"
  | .versionDot => "did not find expected digit or '.' character"
  | .badName => "did not find expected alphabetic or numeric character"
  | .tagMark => "did not find the expected '>'"
  | .tagHandle => "did not find expected '!'"
  | .tagUri => "did not find expected tag URI"
  | .tagEscape => "did not find URI escaped octet"
  | .tagLead => "found an incorrect leading UTF-8 octet"
  | .tagTrail => "found an incorrect trailing UTF-8 octet"
  | .tagSpace => "did not find expected whitespace"
  | .tagEnd => "did not find expected whitespace or line break"
  | .zeroIndent => "found an indentation indicator equal to 0"
  | .headerEnd => "did not find expected comment or line break"
  | .indentTab => "found a tab character where an indentation space is expected"
  | .plainTab => "found a tab character that violates indentation"
  | .quotedDocument => "found unexpected document indicator"
  | .quotedEnd => "found unexpected end of stream"
  | .unknownEscape => "found unknown escape character"
  | .escapeDigit => "did not find expected hexdecimal number"
  | .escapeCode => "found invalid Unicode character escape code"
  | .duplicateVersion => "found duplicate %YAML directive"
  | .otherVersion => "found incompatible YAML document"
  | .duplicateTagDirective => "found duplicate %TAG directive"
  | .noDocumentStart => "did not find expected <document start>"
  | .undefinedHandle => "found undefined tag handle"
  | .noContent => "did not find expected node content"
  | .noEntry => "did not find expected '-' indicator"
  | .noKey => "did not find expected key"
  | .noFlowSequenceEnd => "did not find expected ',' or ']'"
  | .noFlowMappingEnd => "did not find expected ',' or '\x7d'"
  | .unknownAnchor name => s!"unknown anchor '{name}' referenced"
  | .selfAnchor name => s!"anchor '{name}' value contains itself"
  | .badBinary => "!!binary value contains invalid base64 data"
  | .mergeValue => "map merge requires map or sequence of maps as the value"
  | .wrongTag found value wanted => s!"cannot decode {found} `{value}` as a {wanted}"

/-- A problem, and the line that its report names. -/
structure ReadError where
  /-- The line, or zero if the report names none. -/
  line : Nat
  /-- The problem. -/
  problem : Problem
  deriving DecidableEq

namespace ReadError

/-- The text of a report. -/
def message (e : ReadError) : String :=
  if e.line = 0 then s!"yaml: {e.problem.message}"
  else s!"yaml: line {e.line}: {e.problem.message}"

/-- A report of a problem at `here` with something that began at `context`. -/
def scanning (problem : Problem) (context here : Mark) : ReadError :=
  if context.line ≠ 0 then ⟨context.line + 1, problem⟩
  else if here.line ≠ 0 then ⟨here.line + 1, problem⟩
  else ⟨0, problem⟩

/-- A report of a problem at `here` in a node that began at `context`; it counts lines from zero. -/
def arranging (problem : Problem) (context here : Mark) : ReadError :=
  ⟨if context.line ≠ 0 then context.line else here.line, problem⟩

/-- A report that names no line. -/
def plain (problem : Problem) : ReadError := ⟨0, problem⟩

end ReadError

/-! ## Values of other types -/

/-- What does not fit the type that a document is read into, with the line of it. -/
inductive Mismatch where
  /-- A value of another type than the wanted one. -/
  | type (line : Nat) (tag : String) (value : Option String) (wanted : String)
  /-- A field that a record does not have. -/
  | unknownField (line : Nat) (name record : String)
  /-- A field that is given twice by different keys. -/
  | repeatedField (line : Nat) (name record : String)
  /-- A key that is given twice. -/
  | repeatedKey (line : Nat) (key : String) (first : Nat)
  deriving DecidableEq

/-- The first octets of a text; each octet of a character that is cut shows as a replacement
character. -/
def cutOctets : Nat → List Char → List Char
  | _, [] => []
  | n, c :: cs =>
    if c.utf8Size ≤ n then c :: cutOctets (n - c.utf8Size) cs
    else List.replicate n '\ufffd'

/-- A value in a message: cut after 7 octets if it has more than 10. -/
def shownValue (s : String) : String :=
  if 10 < s.utf8ByteSize then String.ofList (cutOctets 7 s.toList) ++ "..." else s

/-- The text of a mismatch. -/
def Mismatch.message : Mismatch → String
  | .type line tag (some value) wanted =>
    s!"line {line}: cannot unmarshal {tag} `{shownValue value}` into {wanted}"
  | .type line tag none wanted => s!"line {line}: cannot unmarshal {tag} into {wanted}"
  | .unknownField line name record => s!"line {line}: field {name} not found in type {record}"
  | .repeatedField line name record => s!"line {line}: field {name} already set in type {record}"
  | .repeatedKey line key first =>
    s!"line {line}: mapping key {Text.quote key} already defined at line {first}"

/-- Why a text is not read. -/
inductive Fault where
  /-- The form of the text is wrong. -/
  | malformed (error : ReadError)
  /-- Values do not fit the type. -/
  | mistyped (mismatches : List Mismatch)
  deriving DecidableEq

/-- The text of a fault. -/
def Fault.message : Fault → String
  | .malformed e => e.message
  | .mistyped ms => "yaml: unmarshal errors:\n  " ++ "\n  ".intercalate (ms.map Mismatch.message)

end StackFlow.Yaml
