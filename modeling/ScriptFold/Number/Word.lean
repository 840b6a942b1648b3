/-!
Whole parts of numbers, 32-bit words and remainders.

Numbers are binary64 floats. What the float operations of core leave out is computed exactly on
mantissa and exponent: a finite number is `m * 2 ^ e` with a sign.
-/

namespace ScriptFold.Number

open Float.Model

def nan : Float := 0.0 / 0.0

def infinity : Float := 1.0 / 0.0

/-- The number without its fraction; zero for a number that is not finite. -/
def whole (x : Float) : Int := x.toModel.unpack.toInt 0 0

/-- The whole part modulo `2 ^ 32`. -/
def toWord (x : Float) : UInt32 := UInt32.ofNat (whole x % UInt32.size).toNat

/-- The whole part as a signed word, modulo `2 ^ 32`. -/
def toSignedWord (x : Float) : Int32 := (toWord x).toInt32

/-- `x` less the multiple of `y` that leaves a remainder smaller than `y` with the sign of `x`.
The remainder of two finite numbers is exact. -/
def remainder (x y : Float) : Float :=
  match x.toModel.unpack, y.toModel.unpack with
  | .notANumber, _ | _, .notANumber | .infinity _, _ | _, .zero _ => nan
  | .zero _, _ | .finite .., .infinity _ => x
  | .finite s m e _, .finite _ n f _ =>
    let g := min e f
    let r := (m <<< (e - g).toNat) % (n <<< (f - g).toNat)
    .ofModel (pack (UnpackedFloat.round .binary64 s r g))

example : remainder (-5.0) 3.0 = -2.0 := by decide +kernel
example : remainder (-4.0) 2.0 = -0.0 := by decide +kernel
example : remainder 5.5 0.25 = 0.0 := by decide +kernel
example : (toWord (-1.5)).toNat = 4294967295 ∧ (toSignedWord 2147483648.0).toInt = -2147483648 := by
  decide +kernel

end ScriptFold.Number
