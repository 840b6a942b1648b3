import ScriptFold.Assoc
import ScriptFold.Build.Macro
import ScriptFold.Build.Options
import ScriptFold.Build.State
import ScriptFold.Build.WrittenOptions
import ScriptFold.Constant
import ScriptFold.Diagnostic
import ScriptFold.Evaluation
import ScriptFold.Evaluation.Memory
import ScriptFold.Evaluator
import ScriptFold.Expr
import ScriptFold.Expr.Slot
import ScriptFold.Fault
import ScriptFold.Fold
import ScriptFold.Grammar.Cursor
import ScriptFold.Grammar.Expression
import ScriptFold.Grammar.Source
import ScriptFold.Grammar.Statement
import ScriptFold.Index
import ScriptFold.Json
import ScriptFold.Json.Printer
import ScriptFold.Json.Reader
import ScriptFold.Json.Written
import ScriptFold.Lexeme
import ScriptFold.Literal
import ScriptFold.Number.Decimal
import ScriptFold.Number.Layout
import ScriptFold.Number.OfText
import ScriptFold.Number.Shortest
import ScriptFold.Number.Word
import ScriptFold.Operator
import ScriptFold.Program
import ScriptFold.Span
import ScriptFold.Text.Blank
import ScriptFold.Text.Letters
import ScriptFold.Text.Printable
import ScriptFold.Text.Quoted
import ScriptFold.Text.Ranges
import ScriptFold.Text.Split
import ScriptFold.Text.Units
import ScriptFold.Token
import ScriptFold.Value
import ScriptFold.Value.Comparison
import ScriptFold.Value.Conversion
import ScriptFold.Value.Property
import ScriptFold.Version
import ScriptFold.Version.Pattern
import ScriptFold.Version.Range
import ScriptFold.Proofs.Evaluation.KnownResults
import ScriptFold.Proofs.Evaluation.Hereditary
import ScriptFold.Proofs.Evaluation.Lockstep
import ScriptFold.Proofs.Expr.Ids
import ScriptFold.Proofs.Expr.Nodes
import ScriptFold.Proofs.Expr.Walk
import ScriptFold.Proofs.Grammar.Numbering
import ScriptFold.Proofs.Grammar.Postorder
import ScriptFold.Proofs.Index.Imports
import ScriptFold.Proofs.Evaluation.Accesses
import ScriptFold.Proofs.Evaluation.Operands
import ScriptFold.Proofs.Evaluation.LastWrite
import ScriptFold.Proofs.Literal.Numerals
import ScriptFold.Proofs.Literal.Printer
import ScriptFold.Proofs.Literal.Strings
import ScriptFold.Proofs.Evaluation.UniqueKeys
import ScriptFold.Proofs.Literal.Lexemes
import ScriptFold.Proofs.Literal.Recovery
import ScriptFold.Proofs.Literal.RoundTrip
import ScriptFold.Proofs.Evaluation.Visits
import ScriptFold.Proofs.Evaluation.Frame
import ScriptFold.Proofs.Evaluation.Requests
import ScriptFold.Proofs.Evaluation.Alone
import ScriptFold.Proofs.Evaluation.Anew
import ScriptFold.Proofs.Evaluation.LastingFaults
import ScriptFold.Proofs.Lexeme.Tiling
import ScriptFold.Proofs.Grammar.Reading
import ScriptFold.Proofs.Grammar.Motion
import ScriptFold.Proofs.Grammar.Fitting
import ScriptFold.Proofs.Grammar.Loops
import ScriptFold.Proofs.Grammar.Progress
import ScriptFold.Proofs.Grammar.CleanParse
import ScriptFold.Proofs.Expr.Spelled
import ScriptFold.Proofs.Grammar.Levels
import ScriptFold.Proofs.Grammar.Inversion
import ScriptFold.Proofs.Index.Places
import ScriptFold.Proofs.Index.Scoping
import ScriptFold.Proofs.Evaluation.Order
import ScriptFold.Proofs.Evaluation.Leavings
import ScriptFold.Proofs.Evaluation.Skipped
import ScriptFold.Proofs.Evaluation.Readings
import ScriptFold.Proofs.Evaluation.Slots
import ScriptFold.Proofs.Evaluation.SlotFaults
import ScriptFold.Proofs.Index.Tree
import ScriptFold.Proofs.Literal.Compact
import ScriptFold.Proofs.Version.Order
import ScriptFold.Proofs.Version.Comparators
import ScriptFold.Proofs.Version.Composition
import ScriptFold.Proofs.Evaluation.Locality
import ScriptFold.Proofs.Evaluation.ShortCircuit
import ScriptFold.Proofs.Evaluation.Moments
import ScriptFold.Proofs.Evaluation.NamedParts
import ScriptFold.Proofs.Evaluation.MemberAssignments
import ScriptFold.Proofs.Index.Constants
import ScriptFold.Proofs.Evaluation.Backing
import ScriptFold.Proofs.Grammar.OptionalChains
import ScriptFold.Proofs.Evaluation.OptionalChains
import ScriptFold.Proofs.Version.Parts
import ScriptFold.Proofs.Version.Texts
import ScriptFold.Proofs.Version.ReadBack
import ScriptFold.Proofs.Version.Caret
import ScriptFold.Proofs.Version.Components
import ScriptFold.Proofs.Lexeme.Slices
import ScriptFold.Proofs.Literal.UnicodeEscapes
import ScriptFold.Proofs.Number.Comparison
import ScriptFold.Proofs.Text.Units
import ScriptFold.Proofs.Value.Relations
import ScriptFold.Proofs.Value.LooseEquality
import ScriptFold.Proofs.Lexeme.Faults
import ScriptFold.Proofs.Expr.Moved
import ScriptFold.Proofs.Grammar.Embedding
import ScriptFold.Proofs.Grammar.EmbeddedExpressions
import ScriptFold.Proofs.Grammar.Semicolons
import ScriptFold.Proofs.Grammar.EmbeddedStatements
import ScriptFold.Proofs.Lexeme.Semicolons
import ScriptFold.Proofs.Lexeme.Seam
import ScriptFold.Proofs.Grammar.Composition
import ScriptFold.Proofs.Text.Trailing
import ScriptFold.Proofs.Number.Digits
import ScriptFold.Proofs.Build.Owner
import ScriptFold.Proofs.Value.Indexing
import ScriptFold.Proofs.Value.Entries
import ScriptFold.Proofs.Evaluation.SeededEvaluators
import ScriptFold.Proofs.Number.Fewest
import ScriptFold.Proofs.Number.Whole
import ScriptFold.Proofs.Results
import ScriptFold.Proofs.Number.ExactTexts
import ScriptFold.Proofs.Build.Slashes
import ScriptFold.Proofs.Grammar.Between
import ScriptFold.Proofs.Grammar.Spans
import ScriptFold.Proofs.Number.Integers
import ScriptFold.Proofs.Value.OfJson
import ScriptFold.Proofs.Evaluation.TestingFlag
