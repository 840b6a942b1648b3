import ScriptFold.Assoc
import ScriptFold.Expr
import ScriptFold.Json
import ScriptFold.Number.Layout
import ScriptFold.Text.Quoted

/-!
The values that scripts compute.

Arrays and objects have an identity besides what they hold: a script can tell two arrays apart
that hold the same. Objects hold a key once, in the order in which the keys first came.
-/

namespace ScriptFold

/-- Who makes an array, an object or an answer: an evaluator at a node, or somebody else. -/
inductive Maker
  | node (evaluator : Nat) (id : NodeId)
  | given (n : Nat)
deriving DecidableEq, Repr

/-- The identity of an array or object: who made it, and its place in all that was made then. -/
structure Identity where
  maker : Maker
  path : List Nat
deriving DecidableEq, Repr

/-- The identity of what stands at a place inside an array or object. -/
def Identity.part (i : Identity) (n : Nat) : Identity := ⟨i.maker, i.path ++ [n]⟩

inductive Value where
  | undefined
  | null
  | bool (b : Bool)
  | number (x : Float)
  | string (s : String)
  | array (identity : Identity) (items : List Value)
  | object (identity : Identity) (entries : List (String × Value))
deriving Inhabited

namespace Value

/-- The object with some entries. A repeated key keeps its first place and its last value. -/
def ofEntries (identity : Identity) (entries : List (String × Value)) : Value :=
  .object identity (Assoc.ofList entries)

mutual

def ofJson (i : Identity) : Json → Value
  | .null => .null
  | .bool b => .bool b
  | .int n => .number (Float.ofInt n)
  | .float x => .number x
  | .string s => .string s
  | .array items => .array i (ofJsonItems i 0 items)
  | .object entries => ofEntries i (ofJsonEntries i 0 entries)

def ofJsonItems (i : Identity) (n : Nat) : List Json → List Value
  | [] => []
  | item :: rest => ofJson (i.part n) item :: ofJsonItems i (n + 1) rest

def ofJsonEntries (i : Identity) (n : Nat) : List (String × Json) → List (String × Value)
  | [] => []
  | (key, value) :: rest => (key, ofJson (i.part n) value) :: ofJsonEntries i (n + 1) rest

end

/-- What the operator for types would report. -/
def typeName : Value → String
  | undefined => "undefined"
  | null | array _ _ | object _ _ => "object"
  | bool _ => "boolean"
  | number _ => "number"
  | string _ => "string"

def isNullish : Value → Bool
  | undefined | null => true
  | _ => false

def isTruthy : Value → Bool
  | undefined | null => false
  | bool b => b
  | number x => !(x == 0.0 || x.isNaN)
  | string s => !s.isEmpty
  | array _ _ | object _ _ => true

mutual

/-- Whether two values hold the same, whatever their identities. -/
def beq : Value → Value → Bool
  | undefined, undefined | null, null => true
  | bool a, bool b => a == b
  | number x, number y => x == y
  | string s, string t => s == t
  | array _ xs, array _ ys => beqItems xs ys
  | object _ es, object _ fs => beqEntries es fs
  | _, _ => false

def beqItems : List Value → List Value → Bool
  | [], [] => true
  | x :: xs, y :: ys => beq x y && beqItems xs ys
  | _, _ => false

def beqEntries : List (String × Value) → List (String × Value) → Bool
  | [], [] => true
  | (k, x) :: es, (l, y) :: fs => k == l && beq x y && beqEntries es fs
  | _, _ => false

end

instance : BEq Value := ⟨beq⟩

mutual

/-- The value as debug output shows it. -/
def debugText : Value → String
  | undefined => "undefined"
  | null => "null"
  | bool b => if b then "true" else "false"
  | number x => Number.toText x
  | string s => Text.quoted s
  | array _ items => "[" ++ ", ".intercalate (debugItems items) ++ "]"
  | object _ [] => "\x7b\x7d"
  | object _ (e :: es) => "\x7b " ++ ", ".intercalate (debugEntries (e :: es)) ++ " \x7d"

def debugItems : List Value → List String
  | [] => []
  | item :: rest => debugText item :: debugItems rest

def debugEntries : List (String × Value) → List String
  | [] => []
  | (key, value) :: rest => (Text.quoted key ++ ": " ++ debugText value) :: debugEntries rest

end

end Value

end ScriptFold
