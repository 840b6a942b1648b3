import ScriptFold.Json
import ScriptFold.Number.Layout

/-!
Compact JSON texts.

Only quotes, backslashes and control characters are escaped. A float is written with a point or a
power of ten, so that it does not read back as an integer.
-/

namespace ScriptFold.Json

/-- How one character is written in a string. -/
def escapedChar (c : Char) : List Char :=
  if c = '"' then ['\\', '"']
  else if c = '\\' then ['\\', '\\']
  else if c = '\x08' then ['\\', 'b']
  else if c = '\t' then ['\\', 't']
  else if c = '\n' then ['\\', 'n']
  else if c = '\x0c' then ['\\', 'f']
  else if c = '\r' then ['\\', 'r']
  else if c.toNat < 0x10 then ['\\', 'u', '0', '0', '0', Nat.digitChar c.toNat]
  else if c.toNat < 0x20 then ['\\', 'u', '0', '0', '1', Nat.digitChar (c.toNat - 0x10)]
  else [c]

def stringText (s : String) : List Char := '"' :: s.toList.flatMap escapedChar ++ ['"']

/-- Numbers that are not integers. -/
def layout : Number.Layout := ⟨-5, 15, true, .even⟩

def floatText (x : Float) : String :=
  match x.toModel.unpack with
  | .zero .positive => "0.0"
  | .zero .negative => "-0.0"
  | .finite s m e _ => layout.writeFinite (s == .negative) m e
  | _ => "null"

mutual

/-- The text of a value, without any space. -/
def write : Json → List Char
  | .null => "null".toList
  | .bool b => (if b then "true" else "false").toList
  | .int n => (toString n).toList
  | .float x => (floatText x).toList
  | .string s => stringText s
  | .array items => '[' :: writeItems items ++ [']']
  | .object entries => '\x7b' :: writeEntries entries ++ ['\x7d']

def writeItems : List Json → List Char
  | [] => []
  | [item] => item.write
  | item :: next :: rest => item.write ++ ',' :: writeItems (next :: rest)

def writeEntries : List (String × Json) → List Char
  | [] => []
  | [(key, value)] => stringText key ++ ':' :: value.write
  | (key, value) :: next :: rest =>
    stringText key ++ ':' :: value.write ++ ',' :: writeEntries (next :: rest)

end

def toText (j : Json) : String := String.ofList j.write

def compact : Printer := fun j => .ok j.toText

end ScriptFold.Json
