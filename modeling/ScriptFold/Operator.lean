import ScriptFold.Value.Comparison

/-!
What operators compute.

Exponentiation and the operator for types compute nothing here. The logical operators are
functions of two values as well.
-/

namespace ScriptFold

/-! ## Words -/

def Value.ofSignedWord (w : Int32) : Value := .number w.toFloat

def Value.ofWord (w : UInt32) : Value := .number w.toFloat

/-- How far a shift goes: the last five bits count. -/
def Value.shiftCount (v : Value) : UInt32 := v.toWord &&& 31

namespace BinaryOp

/-- Sums numbers, or joins texts if either side is one. -/
def sum (a b : Value) : Value :=
  match a.toPrimitive, b.toPrimitive with
  | .string s, b => .string (s ++ b.toText)
  | a, .string t => .string (a.toText ++ t)
  | a, b => .number (a.toNumber + b.toNumber)

def function? : BinaryOp → Option (Value → Value → Value)
  | bitOr => some fun a b => .ofSignedWord (a.toSignedWord ||| b.toSignedWord)
  | bitXor => some fun a b => .ofSignedWord (a.toSignedWord ^^^ b.toSignedWord)
  | bitAnd => some fun a b => .ofSignedWord (a.toSignedWord &&& b.toSignedWord)
  | looseEq => some fun a b => .bool (a.looseEq b)
  | looseNe => some fun a b => .bool (!a.looseEq b)
  | strictEq => some fun a b => .bool (a.strictEq b)
  | strictNe => some fun a b => .bool (!a.strictEq b)
  | lt => some fun a b => .bool (a.less? b == some true)
  | gt => some fun a b => .bool (b.less? a == some true)
  | le => some fun a b => .bool (b.less? a == some false)
  | ge => some fun a b => .bool (a.less? b == some false)
  | shl => some fun a b => .ofSignedWord (a.toWord <<< b.shiftCount).toInt32
  | shr => some fun a b => .ofSignedWord (a.toSignedWord >>> b.shiftCount.toInt32)
  | ushr => some fun a b => .ofWord (a.toWord >>> b.shiftCount)
  | add => some sum
  | sub => some fun a b => .number (a.toNumber - b.toNumber)
  | mul => some fun a b => .number (a.toNumber * b.toNumber)
  | div => some fun a b => .number (a.toNumber / b.toNumber)
  | rem => some fun a b => .number (Number.remainder a.toNumber b.toNumber)
  | exp => none

end BinaryOp

namespace LogicalOp

def decides : LogicalOp → Value → Bool
  | or, a => a.isTruthy
  | and, a => !a.isTruthy
  | nullish, a => !a.isNullish

/-- The value of an operator on two values: the left one if it decides. -/
def function (op : LogicalOp) (a b : Value) : Value := if op.decides a then a else b

end LogicalOp

def UnaryOp.function? : UnaryOp → Option (Value → Value)
  | neg => some fun a => .number (-a.toNumber)
  | plus => some fun a => .number a.toNumber
  | bitNot => some fun a => .ofSignedWord (~~~a.toSignedWord)
  | not => some fun a => .bool !a.isTruthy
  | void => some fun _ => .undefined
  | typeof => none

/-! ## Tables -/

namespace Operator

def logical : List LogicalOp := [.or, .and, .nullish]

def binary : List BinaryOp := [.bitOr, .bitXor, .bitAnd, .looseEq, .looseNe, .strictEq, .strictNe,
  .lt, .gt, .le, .ge, .shl, .shr, .ushr, .add, .sub, .mul, .div, .rem]

def unary : List UnaryOp := [.neg, .plus, .bitNot, .not, .void]

/-- The operators on two values that compute something, by spelling. -/
def binaryTable : List (String × (Value → Value → Value)) :=
  logical.map (fun op => (op.spelling, op.function)) ++
    binary.filterMap fun op => op.function?.map fun f => (op.spelling, f)

def unaryTable : List (String × (Value → Value)) :=
  unary.filterMap fun op => op.function?.map fun f => (op.spelling, f)

example : binaryTable.length = 22 ∧ unaryTable.length = 5 := ⟨rfl, rfl⟩

end Operator

end ScriptFold
