import ScriptFold.Number.Decimal
import ScriptFold.Text.Split
import ScriptFold.Version

/-!
Version patterns: versions that may leave numbers open at their end.

The text of a pattern may begin with an equals sign and the letter `v`. What follows a plus sign
does not count. A tag is read for its form only, unless all three numbers are there.
-/

namespace ScriptFold.Version

/-- What a program does where a sum does not fit 64 bits: it goes on with zero, or it stops. -/
inductive Overflow
  | wraps
  | stops
deriving DecidableEq, Repr

inductive RangeError
  | malformed
  /-- The program stops at a sum that does not fit 64 bits. -/
  | overflow
deriving DecidableEq, Repr

/-- One more than a number of 64 bits. -/
def Overflow.next (o : Overflow) (n : Nat) : Except RangeError Nat :=
  if n + 1 < UInt64.size then .ok (n + 1)
  else
    match o with
    | wraps => .ok 0
    | stops => .error .overflow

/-- A version, or the numbers that it begins with. -/
inductive Pattern
  | any
  | major (major : Nat)
  | minor (major minor : Nat)
  | full (v : Version)
deriving DecidableEq, Repr

def number? (cs : List Char) : Option Nat :=
  if cs ≠ [] ∧ cs.all Char.isDigit then
    let n := Number.ofDigits cs
    if n < UInt64.size then some n else none
  else none

/-- One part of a tag. A part of digits is a number, which must fit 64 bits. -/
def Tag.ofText? (cs : List Char) : Option Tag :=
  if cs = [] then none
  else if cs.all Char.isDigit then (number? cs).map .numeric
  else if cs.all fun c => c.isAlphanum || c = '-' then some (.alpha (String.ofList cs))
  else none

def tagsOfText? (cs : List Char) : Option (List Tag) := (cs.splitOn '.').mapM Tag.ofText?

namespace Pattern

def isWild (cs : List Char) : Bool := cs = ['x'] || cs = ['X'] || cs = ['*']

/-- The numbers that come before the first open one. After an open number all others are open. -/
def numbers? : List (List Char) → Option (List Nat)
  | [] => some []
  | cs :: rest =>
    if isWild cs then if rest.all isWild then some [] else none
    else do return (← number? cs) :: (← numbers? rest)

/-- The pattern with some numbers and a tag; none if there are more than three numbers. -/
def ofNumbers? (tags : List Tag) : List Nat → Option Pattern
  | [] => some any
  | [a] => some (.major a)
  | [a, b] => some (.minor a b)
  | [a, b, c] => some (.full ⟨a, b, c, tags⟩)
  | _ => none

/-- The parts between the points of a text; an empty text has none. -/
def parts (cs : List Char) : List (List Char) := if cs = [] then [] else cs.splitOn '.'

def withoutSigns (cs : List Char) : List Char :=
  let cs := Text.trim cs
  let cs := (if cs.head? = some '=' then cs.drop 1 else cs).dropWhile Text.isBlank
  if cs.head? = some 'v' ∨ cs.head? = some 'V' then cs.drop 1 else cs

def ofText? (cs : List Char) : Option Pattern := do
  let cs := (withoutSigns cs).takeWhile (· ≠ '+')
  let (core, tag?) :=
    match Text.cutAt '-' cs with
    | some (core, tag) => (core, some tag)
    | none => (cs, none)
  let parts := parts core
  if 3 < parts.length then none
  let numbers ← numbers? parts
  let tags ← (tag?.map tagsOfText?).getD (some [])
  ofNumbers? tags numbers

def lower : Pattern → Version
  | any => .floor 0 0 0
  | major a => .floor a 0 0
  | minor a b => .floor a b 0
  | full v => v

/-- The least version after all that fit, where numbers are open. -/
def upper? (o : Overflow) : Pattern → Except RangeError (Option Version)
  | any => .ok none
  | major a => (o.next a).map fun n => some (.floor n 0 0)
  | minor a b => (o.next b).map fun n => some (.floor a n 0)
  | full _ => .ok none

end Pattern

def ofText? (text : String) : Option Version :=
  match Pattern.ofText? text.toList with
  | some (.full v) => some v
  | _ => none

end ScriptFold.Version
