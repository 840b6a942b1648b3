import ScriptFold.Number.Decimal
import ScriptFold.Text.Blank
import ScriptFold.Text.Split

/-!
The number that a text denotes when it is used as one.

Blanks around a text do not count, and nothing at all is zero. Besides decimals there are infinity
and digits in three other radices; all else is not a number.
-/

namespace ScriptFold.Number

def isMargin (c : Char) : Bool := Text.isBlank c || c = '\ufeff'

/-- The text without blanks and byte order marks at its ends. -/
def withoutMargin (cs : List Char) : List Char :=
  ((cs.dropWhile isMargin).reverse.dropWhile isMargin).reverse

/-- The marks before digits in a radix other than ten. -/
def radixMarks : List (List Char × Nat) := [
  (['0', 'x'], 16), (['0', 'X'], 16), (['0', 'o'], 8), (['0', 'O'], 8), (['0', 'b'], 2),
  (['0', 'B'], 2)]

/-- The radix of a text that begins with such a mark, and what follows. -/
def radixMark? (cs : List Char) : Option (Nat × List Char) :=
  radixMarks.findSome? fun (mark, radix) => (Text.dropStart? mark cs).map fun ds => (radix, ds)

def ofTrimmed (cs : List Char) : Float :=
  if cs = [] then 0.0
  else if cs = "Infinity".toList ∨ cs = "+Infinity".toList then infinity
  else if cs = "-Infinity".toList then -infinity
  else
    match radixMark? cs with
    | some (radix, ds) => if ds = [] then nan else (readRadix radix ds).getD nan
    | none => (readDecimal cs).getD nan

def ofText (s : String) : Float := ofTrimmed (withoutMargin s.toList)

example : ofText "  42\n" = 42.0 ∧ ofText "" = 0.0 ∧ ofText "0x1F" = 31.0 := by decide +kernel
example : (ofText "inf").isNaN ∧ (ofText "12px").isNaN ∧ (ofText "0x").isNaN := by decide +kernel

end ScriptFold.Number
