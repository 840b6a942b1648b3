import ScriptFold.Number.Word

/-!
Reading numbers: decimal texts, and digits in another radix.

A decimal text is a coefficient with an optional point and an optional power of ten. It is read
as the nearest number. Digits in another radix are summed in floating point from the left, which
rounds at every digit past the 53rd bit.
-/

namespace ScriptFold.Number

def digit? (radix : Nat) (c : Char) : Option Nat :=
  let value :=
    if '0' ≤ c ∧ c ≤ '9' then some (c.toNat - '0'.toNat)
    else if 'a' ≤ c ∧ c ≤ 'f' then some (c.toNat - 'a'.toNat + 10)
    else if 'A' ≤ c ∧ c ≤ 'F' then some (c.toNat - 'A'.toNat + 10)
    else none
  value.filter (· < radix)

def ofDigits (ds : List Char) : Nat :=
  ds.foldl (fun n d => 10 * n + (d.toNat - '0'.toNat)) 0

/-- The nearest number to `coefficient * 10 ^ exponent`. The power is not computed where the
number is certain to be beyond the largest or below the smallest one. -/
def ofDecimal (coefficient : Nat) (exponent : Int) : Float :=
  if coefficient = 0 ∨ exponent + coefficient.log2 < -400 then 0.0
  else if 400 < exponent then infinity
  else Float.ofScientific coefficient (exponent < 0) exponent.natAbs

/-- Optional sign: whether the text is negative, and what follows. -/
def readSign : List Char → Bool × List Char
  | '-' :: rest => (true, rest)
  | '+' :: rest => (false, rest)
  | cs => (false, cs)

def readExponent : List Char → Option Int
  | [] => some 0
  | c :: rest =>
    if c = 'e' ∨ c = 'E' then
      let (negative, ds) := readSign rest
      if ds ≠ [] ∧ ds.all Char.isDigit then
        some (if negative then -(ofDigits ds : Int) else ofDigits ds)
      else none
    else none

/-- A decimal text without a sign. A digit must stand before or after the point. -/
def readUnsigned (cs : List Char) : Option Float :=
  let (int, rest) := cs.span Char.isDigit
  let (frac, rest) :=
    match rest with
    | '.' :: rest => rest.span Char.isDigit
    | _ => ([], rest)
  if int = [] ∧ frac = [] then none
  else (readExponent rest).map fun e => ofDecimal (ofDigits (int ++ frac)) (e - frac.length)

def readDecimal (cs : List Char) : Option Float :=
  let (negative, rest) := readSign cs
  (readUnsigned rest).map fun x => if negative then -x else x

def readRadix (radix : Nat) (cs : List Char) : Option Float :=
  cs.foldlM (fun x c => (digit? radix c).map fun d => x * radix.toFloat + d.toFloat) 0.0

example : readDecimal "1e-07".toList = some 1e-7 := by decide +kernel
example : readDecimal "-5.0".toList = some (-5.0) := by decide +kernel
example : readDecimal ".".toList = none ∧ readDecimal "5.".toList = some 5.0 := by decide +kernel
example : readRadix 16 "ff".toList = some 255.0 := by decide +kernel

end ScriptFold.Number
