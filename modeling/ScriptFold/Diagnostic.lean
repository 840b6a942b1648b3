import ScriptFold.Span

/-!
Diagnostics: what is wrong with a source text, and where.
-/

namespace ScriptFold

inductive Severity
  | error
  | warning
deriving DecidableEq, Repr

/-- The reading step that makes a diagnostic: of tokens, or of the grammar. -/
inductive Stage
  | tokens
  | grammar
deriving DecidableEq, Repr

inductive Code
  | unexpectedCharacter
  | unterminatedString
  | unterminatedComment
  | invalidEscape
  | invalidNumber
  | unexpectedToken
  | expectedExpression
  | unclosedDelimiter
  | invalidAssignmentTarget
  | invalidImport
deriving DecidableEq, Repr

namespace Code

def all : List Code := [unexpectedCharacter, unterminatedString, unterminatedComment,
  invalidEscape, invalidNumber, unexpectedToken, expectedExpression, unclosedDelimiter,
  invalidAssignmentTarget, invalidImport]

/-- The number of the code. Those of the grammar start at 100. -/
def number : Code → String
  | unexpectedCharacter => "E0001"
  | unterminatedString => "E0002"
  | unterminatedComment => "E0003"
  | invalidEscape => "E0004"
  | invalidNumber => "E0005"
  | unexpectedToken => "E0100"
  | expectedExpression => "E0101"
  | unclosedDelimiter => "E0102"
  | invalidAssignmentTarget => "E0103"
  | invalidImport => "E0104"

def ofNumber? (n : String) : Option Code := all.find? (·.number = n)

def description : Code → String
  | unexpectedCharacter => "unexpected character in input"
  | unterminatedString => "string literal is not terminated"
  | unterminatedComment => "block comment is not terminated"
  | invalidEscape => "invalid escape sequence in string"
  | invalidNumber => "invalid number literal"
  | unexpectedToken => "unexpected token"
  | expectedExpression => "expected an expression"
  | unclosedDelimiter => "unclosed delimiter"
  | invalidAssignmentTarget => "invalid assignment target"
  | invalidImport => "malformed import declaration"

/-- What usually mends the fault. -/
def suggestion : Code → Option String
  | unterminatedString => some "add the matching closing quote"
  | unterminatedComment => some "add `*/` to close the comment"
  | unclosedDelimiter => some "add the matching closing delimiter"
  | invalidAssignmentTarget => some "only identifiers and member expressions can be assigned to"
  | _ => none

end Code

structure Label where
  span : Span
  message : String
deriving DecidableEq, Repr

structure Diagnostic where
  severity : Severity
  stage : Stage
  code : Option Code
  message : String
  span : Span
  labels : List Label
  help : Option String
deriving DecidableEq, Repr

namespace Diagnostic

def plain (severity : Severity) (stage : Stage) (span : Span) (message : String) : Diagnostic :=
  ⟨severity, stage, none, message, span, [], none⟩

def isError (d : Diagnostic) : Bool := d.severity = .error

/-- Sets the code. What usually mends the fault becomes the help, unless there is one. -/
def withCode (c : Code) (d : Diagnostic) : Diagnostic :=
  { d with code := some c, help := d.help <|> c.suggestion }

def withHelp (text : String) (d : Diagnostic) : Diagnostic := { d with help := some text }

def withLabel (span : Span) (message : String) (d : Diagnostic) : Diagnostic :=
  { d with labels := d.labels ++ [⟨span, message⟩] }

def shift (n : Nat) (d : Diagnostic) : Diagnostic :=
  { d with
    span := d.span.shift n
    labels := d.labels.map fun l => ⟨l.span.shift n, l.message⟩ }

end Diagnostic

end ScriptFold
