import ScriptFold.Fault
import ScriptFold.Grammar.Source

/-!
Literals: expressions that stand for values.

A value is written as JSON, by a printer that is given, and read as an expression. Undefined is the
name `undefined`; inside an array it becomes null, and an entry of an object that holds it is left
out. Numbers that are not finite cannot be written.
-/

namespace ScriptFold

inductive LiteralError
  | notSerializable (text : String)
  /-- The value could not be read. -/
  | fault (f : Fault)
  /-- The printer gave no text. -/
  | unprintable (message : String)
  /-- The text of the value does not read back as an expression. -/
  | unreadable (diagnostics : List Diagnostic)
deriving DecidableEq, Repr

/-- What the error says; none where it shows diagnostics. -/
def LiteralError.message? : LiteralError → Option String
  | notSerializable text => some s!"{text} has no JSON representation"
  | fault f => some f.message
  | unprintable message => some message
  | unreadable _ => none

namespace Value

/-- The largest integer that has all integers up to it among the numbers: `2 ^ 53 - 1`. -/
def maxInteger : Nat := 9007199254740991

/-- A whole number up to `maxInteger` is written as an integer. -/
def numberJson (x : Float) : Except LiteralError Json :=
  let n := Number.whole x
  if x.isFinite then
    if Float.ofInt n == x && n.natAbs ≤ maxInteger then .ok (.int n) else .ok (.float x)
  else .error (.notSerializable (Number.toText x))

mutual

def toJson : Value → Except LiteralError Json
  | undefined => .error (.notSerializable "undefined")
  | null => .ok .null
  | bool b => .ok (.bool b)
  | number x => numberJson x
  | string s => .ok (.string s)
  | array _ items => do return .array (← toJsonItems items)
  | object _ entries => do return .object (← toJsonEntries entries)

def toJsonItems : List Value → Except LiteralError (List Json)
  | [] => .ok []
  | undefined :: rest => do return .null :: (← toJsonItems rest)
  | item :: rest => do return (← toJson item) :: (← toJsonItems rest)

def toJsonEntries : List (String × Value) → Except LiteralError (List (String × Json))
  | [] => .ok []
  | (_, undefined) :: rest => toJsonEntries rest
  | (key, value) :: rest => do return (key, ← toJson value) :: (← toJsonEntries rest)

end

end Value

namespace Literal

variable (print : Json.Printer)

/-- The text in which the text of a value is read as an expression. An object would be read as a
block at the start of a text. -/
def sourceOf (text : String) : String := "a(" ++ text ++ ")"

/-- The expression that the text of a value spells, with the first identity that is still free. -/
def ofText (text : String) (firstId : NodeId) : Except LiteralError (Expr × NodeId) :=
  let read := parseExpression (sourceOf text) firstId
  if read.diagnostics ≠ [] then .error (.unreadable read.diagnostics)
  else
    match read.value with
    | .call _ _ [e] _ => .ok (e, read.nextId)
    | _ => .error (.unreadable [])

def ofJson (json : Json) (firstId : NodeId) : Except LiteralError (Expr × NodeId) := do
  ofText (← (print json).mapError .unprintable) firstId

/-- The expression that stands for a value, with the first identity that is still free. -/
def ofValue (v : Value) (firstId : NodeId) : Except LiteralError (Expr × NodeId) :=
  match v with
  | .undefined => .ok (.ident ⟨firstId, .nowhere⟩ "undefined", firstId + 1)
  | v => do ofJson print (← v.toJson) firstId

def ofReading (reading : Reading) : Except LiteralError Expr := do
  let v ← reading.mapError .fault
  return (← ofValue print v 0).1

end Literal

end ScriptFold
