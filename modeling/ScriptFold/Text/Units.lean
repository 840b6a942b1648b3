/-!
The 16-bit code units of a text.

A character above U+FFFF is a pair of surrogate units. Texts are counted, indexed and ordered
by their units.
-/

namespace ScriptFold.Text

def unitsOfChar (c : Char) : List UInt16 :=
  if c.toNat < 0x10000 then [c.toNat.toUInt16]
  else
    let n := c.toNat - 0x10000
    [(0xD800 + n / 0x400).toUInt16, (0xDC00 + n % 0x400).toUInt16]

def units (s : String) : List UInt16 := s.toList.flatMap unitsOfChar

def isSurrogate (u : UInt16) : Bool := 0xD800 ≤ u && u < 0xE000

/-- The text of one unit, unless the unit is half of a pair. -/
def ofUnit? (u : UInt16) : Option String :=
  if isSurrogate u then none else some (String.singleton (Char.ofNat u.toNat))

/-- The order of texts by their units. It differs from the order by characters where a pair meets
a character above the surrogates. -/
def unitsBefore (s t : String) : Bool := decide (units s < units t)

theorem unitsOfChar_ne_nil (c : Char) : unitsOfChar c ≠ [] := by
  unfold unitsOfChar
  split <;> simp

example : units "a😀" = [0x61, 0xD83D, 0xDE00] := by decide
example : unitsBefore "😀" "\uffff" = true ∧ "\uffff" < "😀" := by decide

end ScriptFold.Text
