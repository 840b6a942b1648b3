import ScriptFold.Evaluator
import ScriptFold.Literal

/-!
Folding: the value of a source text, as far as it is known during the build.

The value of a text is that of its last expression statement. All of them are evaluated in
order, so that variables which earlier ones assign are known to later ones.
-/

namespace ScriptFold

inductive FoldError
  | unreadable (diagnostics : List Diagnostic)
  | fault (f : Fault)
  | literal (e : LiteralError)
deriving DecidableEq, Repr

def Context.ofState (state : Build.State) : Context := ⟨state, Build.handlers⟩

/-- Knows the constants of a program, and macros if there is a state. -/
def Setting.ofProgram (p : Program) (state? : Option Build.State) : Setting :=
  let index := Index.ofProgram p
  ⟨index, .constant index, state?.map .ofState, 0⟩

/-- The answer for the last expression statement of a program; not known if there is none. -/
def Program.evaluate (p : Program) (state? : Option Build.State) : Except Fault Answer :=
  (Evaluator.new (.ofProgram p state?)).evaluateAll none p.expressions

/-- The answer for the last expression statement of a source text without errors. -/
def lastAnswer (source : String) (state? : Option Build.State) : Except FoldError Answer :=
  let read := parseProgram source
  if read.diagnostics.any Diagnostic.isError then .error (.unreadable read.diagnostics)
  else (read.value.evaluate state?).mapError .fault

def evaluateSource (source : String) (state? : Option Build.State) :
    Except FoldError (Option Value) := do
  match ← lastAnswer source state? with
  | none => return none
  | some c => return some (← c.reading.mapError .fault)

/-- The literal that can replace a source text, if its value is known. -/
def foldSource (print : Json.Printer) (source : String) (state? : Option Build.State) :
    Except FoldError (Option Expr) := do
  match ← lastAnswer source state? with
  | none => return none
  | some c => return some (← (Literal.ofReading print c.reading).mapError .literal)

end ScriptFold
