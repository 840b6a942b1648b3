/-!
JSON values.

Numbers that a JSON text writes as integers of at most 64 bits stay integers; all others are
floats. Objects keep the order in which their keys first came.
-/

namespace ScriptFold

inductive Json where
  | null
  | bool (value : Bool)
  | int (value : Int)
  | float (value : Float)
  | string (value : String)
  | array (items : List Json)
  | object (entries : List (String × Json))

namespace Json

/-- Writes values as texts, or says why it cannot. -/
abbrev Printer := Json → Except String String

def number? : Json → Option Float
  | int n => some (Float.ofInt n)
  | float x => some x
  | _ => none

def field? (key : String) : Json → Option Json
  | object entries => entries.lookup key
  | _ => none

/-- Whether a script takes the value for true. -/
def isTruthy : Json → Bool
  | null => false
  | bool b => b
  | int n => n ≠ 0
  | float x => !(x == 0.0 || x.isNaN)
  | string s => !s.isEmpty
  | array _ | object _ => true

end Json

end ScriptFold
