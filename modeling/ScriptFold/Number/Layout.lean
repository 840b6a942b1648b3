import ScriptFold.Number.Shortest
import ScriptFold.Number.Word

/-!
Texts of numbers.

A text lays out the shortest digits of a number, positionally or with a power of ten. What differs
between the formats stands in one record per format.
-/

namespace ScriptFold.Number

/-- The decisions of a format. Between `least` and `greatest` the power of ten of the first digit
is written positionally. -/
structure Layout where
  least : Int
  greatest : Int
  /-- Whether a whole number is written with `.0` when it is written positionally. -/
  pointZero : Bool
  tie : Tie

def Layout.script : Layout := ⟨-6, 20, false, .up⟩

def zeros (n : Nat) : List Char := List.replicate n '0'

/-- The power of ten, always with a sign. -/
def exponentText (x : Int) : List Char :=
  'e' :: (if x < 0 then '-' else '+') :: Nat.toDigits 10 x.natAbs

/-- Lays out the digits `ds`, the first of which counts `10 ^ x`. -/
def Layout.write (l : Layout) (ds : List Char) (x : Int) : List Char :=
  if l.least ≤ x ∧ x ≤ l.greatest then
    if x < 0 then '0' :: '.' :: zeros (-x - 1).toNat ++ ds
    else
      let int := (x + 1).toNat
      if ds.length ≤ int then
        ds ++ zeros (int - ds.length) ++ (if l.pointZero then ['.', '0'] else [])
      else ds.take int ++ '.' :: ds.drop int
  else
    match ds with
    | [] => []
    | [d] => d :: exponentText x
    | d :: rest => d :: '.' :: rest ++ exponentText x

def Layout.writeDecimal (l : Layout) (d : Decimal) : List Char :=
  let ds := Nat.toDigits 10 d.digits
  let kept := (ds.reverse.dropWhile (· = '0')).reverse
  l.write kept (d.exponent + ds.length - 1)

def Layout.writeFinite (l : Layout) (negative : Bool) (m : Nat) (e : Int) : String :=
  let text := l.writeDecimal (shortest l.tie m e)
  String.ofList (if negative then '-' :: text else text)

/-- The text of a number in a script. Zero has no sign. -/
def toText (x : Float) : String :=
  match x.toModel.unpack with
  | .notANumber => "NaN"
  | .infinity .positive => "Infinity"
  | .infinity .negative => "-Infinity"
  | .zero _ => "0"
  | .finite s m e _ => Layout.script.writeFinite (s == .negative) m e

example : toText 1e21 = "1e+21" ∧ toText 1e20 = "100000000000000000000" := by decide +kernel
example : toText 1e-7 = "1e-7" ∧ toText 0.000001 = "0.000001" := by decide +kernel
example : toText (0.1 + 0.2) = "0.30000000000000004" := by decide +kernel
example : toText 5e-324 = "5e-324" ∧ toText (-1234.5) = "-1234.5" := by decide +kernel

end ScriptFold.Number
