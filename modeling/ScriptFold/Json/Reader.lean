import ScriptFold.Json
import ScriptFold.Json.Written
import ScriptFold.Assoc

/-!
What a written JSON value denotes.

Integers that fit 64 bits are kept. All other numbers keep at most the leading digits that fit an
unsigned 64-bit word, and this significand is scaled by one multiplication or division, so that a
long decimal may come out next to the nearest float. A string may not hold half of a pair, and
values may be nested 127 levels deep.
-/

namespace ScriptFold.Json

/-! ## Numbers -/

/-- The digits read so far as a word, and the power of ten that it counts. -/
structure Significand where
  digits : Nat
  exponent : Int

/-- Takes digits as long as the word holds them. -/
def takeDigits : Nat → List Char → Nat × List Char
  | n, [] => (n, [])
  | n, d :: rest =>
    let next := 10 * n + (d.toNat - '0'.toNat)
    if next < UInt64.size then takeDigits next rest else (n, d :: rest)

/-- The significand of a number: digits before the point that do not fit count as powers of ten,
digits after it that do not fit are dropped. -/
def NumberText.significand (t : NumberText) : Significand :=
  let (front, beyond) := takeDigits 0 t.digits
  let frac := t.frac.getD []
  let (digits, dropped) := takeDigits front frac
  ⟨digits, beyond.length - (frac.length - dropped.length : Nat)⟩

def powerOfTen (n : Nat) : Float := Float.ofScientific 1 false n

/-- Divides by a power of ten, at most `10 ^ 308` at a time. -/
def scaleDown (x : Float) (n : Nat) : Float :=
  if h : n ≤ 308 then x / powerOfTen n
  else if x == 0.0 then x
  else scaleDown (x / powerOfTen 308) (n - 308)
termination_by n
decreasing_by omega

def Significand.toFloat? (s : Significand) : Option Float :=
  let x := s.digits.toUInt64.toFloat
  if s.exponent ≤ 0 then some (scaleDown x s.exponent.natAbs)
  else if s.exponent ≤ 308 then
    let y := x * powerOfTen s.exponent.natAbs
    if y.isInf then none else some y
  else if x == 0.0 then some x
  else none

/-- The size of a number that is not an integer of 64 bits. An exponent of more than 31 bits gives
zero, or nothing at all. -/
def NumberText.magnitude? (t : NumberText) : Option Float :=
  let s := t.significand
  match t.exponent with
  | none => s.toFloat?
  | some (negative, ds) =>
    let e := Number.ofDigits ds
    if e < 2147483648 then
      Significand.toFloat? ⟨s.digits, if negative then s.exponent - e else s.exponent + e⟩
    else if s.digits = 0 ∨ negative then some 0.0
    else none

/-- The integer that a number writes, if it is written as one and fits 64 bits. The sign of a
negative zero makes it a float. -/
def NumberText.int? (t : NumberText) : Option Int :=
  let n := Number.ofDigits t.digits
  if t.frac.isSome ∨ t.exponent.isSome then none
  else if t.negative then
    if 0 < n ∧ n ≤ 9223372036854775808 then some (-n) else none
  else if n < UInt64.size then some n
  else none

def NumberText.decode (t : NumberText) : Option Json :=
  match t.int? with
  | some n => some (.int n)
  | none => t.magnitude?.map fun x => .float (if t.negative then -x else x)

/-! ## Strings -/

/-- Joins the halves of pairs; `none` if one half stands alone. -/
def joinPieces : List Piece → Option (List Char)
  | [] => some []
  | .char c :: rest => (joinPieces rest).map (c :: ·)
  | .half u :: .half v :: rest =>
    if u < 0xDC00 ∧ 0xDC00 ≤ v then
      (joinPieces rest).map (Char.ofNat (0x10000 + (u - 0xD800) * 0x400 + (v - 0xDC00)) :: ·)
    else none
  | .half _ :: _ => none

def stringOfPieces (pieces : List Piece) : Option String :=
  (joinPieces pieces).map String.ofList

/-! ## Values -/

/-- How deep values may be nested. -/
def maxDepth : Nat := 127

mutual

/-- The value that a written one denotes, with at most `depth` levels. -/
def Written.decode (depth : Nat) : Written → Option Json
  | .null => some .null
  | .bool b => some (.bool b)
  | .number t => t.decode
  | .string pieces => (stringOfPieces pieces).map .string
  | .array items => if depth = 0 then none else (decodeItems (depth - 1) items).map .array
  | .object members =>
    if depth = 0 then none
    else (decodeMembers (depth - 1) members).map fun entries => .object (Assoc.ofList entries)

def decodeItems (depth : Nat) : List Written → Option (List Json)
  | [] => some []
  | item :: rest => do return (← item.decode depth) :: (← decodeItems depth rest)

def decodeMembers (depth : Nat) : List (List Piece × Written) → Option (List (String × Json))
  | [] => some []
  | (key, value) :: rest => do
    return (← stringOfPieces key, ← value.decode depth) :: (← decodeMembers depth rest)

end

def ofText? (text : String) : Option Json := (Written.ofText? text).bind (·.decode maxDepth)

end ScriptFold.Json
