import Mathlib.Algebra.Group.Nat.Defs
import Mathlib.Data.List.Forall2
import ScriptFold.Json
import ScriptFold.Proofs.Literal.Numerals

/-!
Compact JSON texts.

What is expected of a printer: it has a text for every value, in which nothing stands between the
parts but commas and colons. Only quotes, backslashes and control characters are escaped, and a
number reads back as itself.
-/

namespace ScriptFold.Json

/-- What may stand for a character in a string. -/
inductive Escapes : Char → List Char → Prop
  | plain {c : Char} (hquote : c ≠ '"') (hback : c ≠ '\\') (hcontrol : 0x20 ≤ c.toNat) :
    Escapes c [c]
  | quote : Escapes '"' ['\\', '"']
  | backslash : Escapes '\\' ['\\', '\\']
  | backspace : Escapes '\x08' ['\\', 'b']
  | tab : Escapes '\t' ['\\', 't']
  | lineFeed : Escapes '\n' ['\\', 'n']
  | formFeed : Escapes '\x0c' ['\\', 'f']
  | carriageReturn : Escapes '\r' ['\\', 'r']
  | control {c x y : Char} {i j : Nat} (hx : Number.digit? 16 x = some i)
    (hy : Number.digit? 16 y = some j) (hc : c.toNat = 16 * i + j) (hcontrol : c.toNat < 0x20) :
    Escapes c ['\\', 'u', '0', '0', x, y]

/-- The text is the string between quotes, each character as itself or escaped. -/
def WritesString (s text : String) : Prop :=
  ∃ parts, List.Forall₂ Escapes s.toList parts ∧ text.toList = '"' :: (parts.flatten ++ ['"'])

/-- The text is the key as a string, a colon and the value. -/
def WritesEntry (print : Printer) (entry : String × Json) (text : String) : Prop :=
  ∃ key value, print (.string entry.1) = .ok key ∧ print entry.2 = .ok value ∧
    text = key ++ ":" ++ value

/-- The printer writes compact texts. Nothing is said of integers of more than 64 bits and of
floats that are not finite. -/
structure Compact (print : Printer) : Prop where
  null : print .null = .ok "null"
  bool (b : Bool) : print (.bool b) = .ok (toString b)
  int (n : Int) (h : n.natAbs < 2 ^ 63) : print (.int n) = .ok (toString n)
  float (x : Float) (h : x.isFinite) : ∃ negative cs,
    print (.float x) = .ok (String.ofList (Number.signText negative ++ cs)) ∧ IsNumeral cs ∧
      Number.readDecimal (Number.signText negative ++ cs) = some x
  string (s : String) : ∃ text, print (.string s) = .ok text ∧ WritesString s text
  array {items : List Json} {texts : List String}
    (h : List.Forall₂ (fun j text => print j = .ok text) items texts) :
    print (.array items) = .ok ("[" ++ String.intercalate "," texts ++ "]")
  object {entries : List (String × Json)} {texts : List String}
    (h : List.Forall₂ (WritesEntry print) entries texts) :
    print (.object entries) = .ok ("\x7b" ++ String.intercalate "," texts ++ "\x7d")

mutual

/-- The value has only numbers that a compact printer is expected to write. -/
def Printable : Json → Prop
  | .int n => n.natAbs < 2 ^ 63
  | .float x => x.isFinite
  | .array items => PrintableItems items
  | .object entries => PrintableEntries entries
  | .null | .bool _ | .string _ => True

def PrintableItems : List Json → Prop
  | [] => True
  | item :: rest => item.Printable ∧ PrintableItems rest

def PrintableEntries : List (String × Json) → Prop
  | [] => True
  | (_, value) :: rest => value.Printable ∧ PrintableEntries rest

end

end ScriptFold.Json
