import ScriptFold.Text.Units
import ScriptFold.Value.Conversion

/-!
Comparing values: strict and loose equality, and order.
-/

namespace ScriptFold.Value

/-- Equality without conversion. Arrays and objects are equal to nothing but themselves. -/
def strictEq : Value → Value → Bool
  | undefined, undefined | null, null => true
  | bool a, bool b => a == b
  | number x, number y => x == y
  | string s, string t => s == t
  | array i _, array j _ | object i _, object j _ => i == j
  | _, _ => false

def boolToNumber : Value → Value
  | bool b => .number (bool b).toNumber
  | v => v

/-- Equality of two values that are not null, undefined or booleans. Arrays and objects meet
numbers and texts as their texts, texts meet numbers as numbers. -/
def looseEqPlain (a b : Value) : Bool :=
  match a, b with
  | array _ _, array _ _ | object _ _, object _ _ | array _ _, object _ _ | object _ _, array _ _ =>
    strictEq a b
  | _, _ =>
    match a.toPrimitive, b.toPrimitive with
    | string s, string t => s == t
    | a, b => a.toNumber == b.toNumber

/-- Equality after conversion. Null and undefined equal each other and nothing else; booleans
count as numbers. -/
def looseEq (a b : Value) : Bool :=
  if a.isNullish || b.isNullish then a.isNullish && b.isNullish
  else looseEqPlain a.boolToNumber b.boolToNumber

/-- The order of two values; none where one of them is not a number. Two texts are ordered by
their units, all else as numbers. -/
def less? (a b : Value) : Option Bool :=
  match a.toPrimitive, b.toPrimitive with
  | string s, string t => some (Text.unitsBefore s t)
  | a, b =>
    let x := a.toNumber
    let y := b.toNumber
    if x.isNaN || y.isNaN then none else some (decide (x < y))

end ScriptFold.Value
