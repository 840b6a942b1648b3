import ScriptFold.Number.Decimal

/-!
JSON texts as written.

Reading a text takes two steps. Here a text is cut into marks, and the marks are folded into a
tree of the values they write; numbers keep their digits, and strings the halves of pairs that
their escapes write. What these denote is decided in a second step, so that parts of a text that
nobody asks for are only checked for form.
-/

namespace ScriptFold.Json

structure NumberText where
  negative : Bool
  /-- The digits before the point. -/
  digits : List Char
  /-- The digits after the point, if there is one. -/
  frac : Option (List Char)
  /-- Whether the exponent is negative, and its digits, if there is one. -/
  exponent : Option (Bool × List Char)

/-- A part of a string: a character, or a surrogate unit written as an escape. -/
inductive Piece
  | char (c : Char)
  | half (unit : Nat)

inductive Written where
  | null
  | bool (value : Bool)
  | number (text : NumberText)
  | string (pieces : List Piece)
  | array (items : List Written)
  | object (members : List (List Piece × Written))

/-! ## Marks -/

inductive Mark where
  | openArray
  | closeArray
  | openObject
  | closeObject
  | comma
  | colon
  | string (pieces : List Piece)
  | plain (value : Written)

def isSpace (c : Char) : Bool := c = ' ' || c = '\t' || c = '\n' || c = '\r'

def bracket? : Char → Option Mark
  | '[' => some .openArray
  | ']' => some .closeArray
  | '\x7b' => some .openObject
  | '\x7d' => some .closeObject
  | ',' => some .comma
  | ':' => some .colon
  | _ => none

def hexUnit? (a b c d : Char) : Option Nat := do
  let ds ← [a, b, c, d].mapM (Number.digit? 16)
  return ds.foldl (fun n d => 16 * n + d) 0

def pieceOfUnit (u : Nat) : Piece :=
  if 0xD800 ≤ u ∧ u < 0xE000 then .half u else .char (Char.ofNat u)

def escape? : Char → Option Char
  | '"' => some '"'
  | '\\' => some '\\'
  | '/' => some '/'
  | 'b' => some '\x08'
  | 'f' => some '\x0c'
  | 'n' => some '\n'
  | 'r' => some '\r'
  | 't' => some '\t'
  | _ => none

/-- The rest of a string after its opening quote, and how many characters it takes. -/
def readString : List Char → Option (List Piece × Nat)
  | '"' :: _ => some ([], 1)
  | '\\' :: 'u' :: a :: b :: c :: d :: rest => do
    let u ← hexUnit? a b c d
    let (pieces, n) ← readString rest
    return (pieceOfUnit u :: pieces, n + 6)
  | '\\' :: e :: rest => do
    let c ← escape? e
    let (pieces, n) ← readString rest
    return (.char c :: pieces, n + 2)
  | c :: rest => do
    if c.toNat < 0x20 ∨ c = '\\' then none
    let (pieces, n) ← readString rest
    return (.char c :: pieces, n + 1)
  | [] => none

/-- Digits with a point before them, and the rest. A point without digits is malformed. -/
def readFraction : List Char → Option (Option (List Char) × List Char)
  | '.' :: rest =>
    match rest.span Char.isDigit with
    | ([], _) => none
    | (ds, rest) => some (some ds, rest)
  | cs => some (none, cs)

def readWholeExponent : List Char → Option (Option (Bool × List Char))
  | [] => some none
  | c :: rest =>
    let (negative, ds) := Number.readSign rest
    if (c = 'e' ∨ c = 'E') ∧ ds ≠ [] ∧ ds.all Char.isDigit then some (some (negative, ds))
    else none

/-- A number that makes up a whole text. No digit may follow a leading zero. -/
def readNumber (cs : List Char) : Option NumberText := do
  let negative := cs.head? == some '-'
  let (digits, cs) := (if negative then cs.drop 1 else cs).span Char.isDigit
  if digits = [] ∨ (digits.head? = some '0' ∧ digits.length ≠ 1) then none
  let (frac, cs) ← readFraction cs
  let exponent ← readWholeExponent cs
  return ⟨negative, digits, frac, exponent⟩

def isNumberChar (c : Char) : Bool :=
  c.isDigit || c = '-' || c = '+' || c = '.' || c = 'e' || c = 'E'

/-- A value that is one word: a number or a name. -/
def readWord (cs : List Char) : Option Written :=
  match String.ofList cs with
  | "null" => some .null
  | "true" => some (.bool true)
  | "false" => some (.bool false)
  | _ => (readNumber cs).map .number

def isWordChar (c : Char) : Bool := c.isAlpha || isNumberChar c

def marks : List Char → Option (List Mark)
  | [] => some []
  | c :: rest =>
    if isSpace c then marks rest
    else if c = '"' then do
      let (pieces, n) ← readString rest
      return .string pieces :: (← marks (rest.drop n))
    else
      match bracket? c with
      | some mark => do return mark :: (← marks rest)
      | none => do
        let more := rest.takeWhile isWordChar
        let value ← readWord (c :: more)
        return .plain value :: (← marks (rest.drop more.length))
termination_by cs => cs.length
decreasing_by all_goals simp only [List.length_cons, List.length_drop]; omega

/-! ## Trees -/

/-- A value that is still open, with its parts in reverse. -/
inductive Frame where
  | array (items : List Written)
  | object (members : List (List Piece × Written))
  /-- An object whose last key has no value yet. -/
  | member (members : List (List Piece × Written)) (key : List Piece)

inductive Awaiting where
  | value
  /-- The first item of an array, or its end. -/
  | item
  | key
  /-- The first key of an object, or its end. -/
  | member
  | colon (key : List Piece)
  /-- A comma, or the end of the innermost open value. -/
  | separator
  | nothing (whole : Written)

structure Reading where
  stack : List Frame
  awaiting : Awaiting

def complete (value : Written) : List Frame → Option Reading
  | [] => some ⟨[], .nothing value⟩
  | .array items :: stack => some ⟨.array (value :: items) :: stack, .separator⟩
  | .member members key :: stack => some ⟨.object ((key, value) :: members) :: stack, .separator⟩
  | .object _ :: _ => none

def begin? (stack : List Frame) : Mark → Option Reading
  | .openArray => some ⟨.array [] :: stack, .item⟩
  | .openObject => some ⟨.object [] :: stack, .member⟩
  | .string pieces => complete (.string pieces) stack
  | .plain value => complete value stack
  | _ => none

def Reading.step (r : Reading) (mark : Mark) : Option Reading :=
  match r.awaiting, mark, r.stack with
  | .item, .closeArray, .array items :: stack
  | .separator, .closeArray, .array items :: stack => complete (.array items.reverse) stack
  | .value, mark, stack | .item, mark, stack => begin? stack mark
  | .member, .closeObject, .object members :: stack
  | .separator, .closeObject, .object members :: stack => complete (.object members.reverse) stack
  | .key, .string key, stack | .member, .string key, stack => some ⟨stack, .colon key⟩
  | .colon key, .colon, .object members :: stack => some ⟨.member members key :: stack, .value⟩
  | .separator, .comma, .array items :: stack => some ⟨.array items :: stack, .value⟩
  | .separator, .comma, .object members :: stack => some ⟨.object members :: stack, .key⟩
  | _, _, _ => none

def Written.ofText? (text : String) : Option Written := do
  let r ← (← marks text.toList).foldlM Reading.step ⟨[], .value⟩
  match r.awaiting with
  | .nothing value => return value
  | _ => none

end ScriptFold.Json
