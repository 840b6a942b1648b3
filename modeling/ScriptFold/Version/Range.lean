import ScriptFold.Version.Pattern

/-!
Ranges of versions.

A range lists alternatives between double bars. An alternative is a list of terms that must all
hold, or two patterns with a hyphen between them. A term is a pattern after an operator, which
may stand apart. Pre-releases count like all other versions. The end of a range is one more than a
number of 64 bits, and what becomes of the range where there is no such number depends on how the
program was built.
-/

namespace ScriptFold.Version

inductive Relation
  | lt
  | le
  | gt
  | ge
  | eq
deriving DecidableEq, Repr

def Relation.holds : Relation → Ordering → Bool
  | lt, o => o == .lt
  | le, o => o != .gt
  | gt, o => o == .gt
  | ge, o => o != .lt
  | eq, o => o == .eq

/-- The versions that lie in some way to a given one. -/
structure Comparator where
  relation : Relation
  version : Version
deriving DecidableEq, Repr

def Comparator.holds (c : Comparator) (v : Version) : Bool :=
  c.relation.holds (v.compare c.version)

/-- No version comes before the least one. -/
def Comparator.never : Comparator := ⟨.lt, .floor 0 0 0⟩

/-- Alternatives, each of which lists what must hold. -/
abbrev Range := List (List Comparator)

def Range.holds (r : Range) (v : Version) : Bool := r.any fun cs => cs.all (·.holds v)

/-! ## Terms -/

inductive Operator
  | exactly
  | tilde
  | caret
  | above
  | atLeast
  | below
  | atMost
deriving DecidableEq, Repr

/-- The spellings of operators. One that begins another one comes after it. -/
def operators : List (List Char × Operator) := [
  (['>', '='], .atLeast), (['<', '='], .atMost), (['~', '>'], .tilde), (['>'], .above),
  (['<'], .below), (['='], .exactly), (['~'], .tilde), (['^'], .caret)]

def splitOperator (cs : List Char) : Operator × List Char :=
  let found? := operators.findSome? fun (start, op) =>
    (Text.dropStart? start cs).map fun rest => (op, rest)
  found?.getD (.exactly, cs)

namespace Pattern

variable (o : Overflow)

def fitting : Pattern → Except RangeError (List Comparator)
  | any => .ok []
  | .full v => .ok [⟨.eq, v⟩]
  | .major a => (o.next a).map fun n => [⟨.ge, .floor a 0 0⟩, ⟨.lt, .floor n 0 0⟩]
  | .minor a b => (o.next b).map fun n => [⟨.ge, .floor a b 0⟩, ⟨.lt, .floor a n 0⟩]

def above : Pattern → Except RangeError (List Comparator)
  | any => .ok [.never]
  | .full v => .ok [⟨.gt, v⟩]
  | .major a => (o.next a).map fun n => [⟨.ge, .floor n 0 0⟩]
  | .minor a b => (o.next b).map fun n => [⟨.ge, .floor a n 0⟩]

def atLeast : Pattern → List Comparator
  | any => []
  | p => [⟨.ge, p.lower⟩]

def below : Pattern → List Comparator
  | any => [.never]
  | p => [⟨.lt, p.lower⟩]

def atMost : Pattern → Except RangeError (List Comparator)
  | any => .ok []
  | p => (p.upper? o).map fun
    | some w => [⟨.lt, w⟩]
    | none => [⟨.le, p.lower⟩]

/-- The versions from the pattern on that keep its first two numbers, or its only one. -/
def tilde : Pattern → Except RangeError (List Comparator)
  | any => .ok []
  | .major a => (o.next a).map fun n => [⟨.ge, ⟨a, 0, 0, []⟩⟩, ⟨.lt, .floor n 0 0⟩]
  | .minor a b => (o.next b).map fun n => [⟨.ge, ⟨a, b, 0, []⟩⟩, ⟨.lt, .floor a n 0⟩]
  | .full v => (o.next v.minor).map fun n => [⟨.ge, v⟩, ⟨.lt, .floor v.major n 0⟩]

/-- The least version that changes the first number that is not zero. -/
def caretEnd : Pattern → Except RangeError Version
  | any => .ok (.floor 0 0 0)
  | .major a => (o.next a).map (.floor · 0 0)
  | .minor 0 b => (o.next b).map (.floor 0 · 0)
  | .minor (a + 1) _ => (o.next (a + 1)).map (.floor · 0 0)
  | .full ⟨0, 0, c, _⟩ => (o.next c).map (.floor 0 0 ·)
  | .full ⟨0, b + 1, _, _⟩ => (o.next (b + 1)).map (.floor 0 · 0)
  | .full ⟨a + 1, _, _, _⟩ => (o.next (a + 1)).map (.floor · 0 0)

/-- The first version for a caret: all pre-releases of a release are included. -/
def caretStart : Pattern → Version
  | .full ⟨a, b, c, []⟩ => .floor a b c
  | p => p.lower

/-- The versions from the pattern on that keep the first number that is not zero. -/
def caret : Pattern → Except RangeError (List Comparator)
  | any => .ok []
  | p => (p.caretEnd o).map fun w => [⟨.ge, p.caretStart⟩, ⟨.lt, w⟩]

end Pattern

def Operator.comparators (o : Overflow) (op : Operator) (p : Pattern) :
    Except RangeError (List Comparator) :=
  match op with
  | exactly => p.fitting o
  | tilde => p.tilde o
  | caret => p.caret o
  | above => p.above o
  | atLeast => .ok p.atLeast
  | below => .ok p.below
  | atMost => p.atMost o

def orMalformed {α : Type} (x? : Option α) : Except RangeError α :=
  x?.elim (.error .malformed) .ok

def ofTerm (o : Overflow) (cs : List Char) : Except RangeError (List Comparator) := do
  let (op, rest) := splitOperator cs
  op.comparators o (← orMalformed (Pattern.ofText? rest))

/-! ## Ranges -/

def isOperator (word : List Char) : Bool := operators.any fun (start, _) => start = word

/-- Joins operators that stand apart to the word after them; none if there is no such word. -/
def joinOperators : List (List Char) → Option (List (List Char))
  | [] => some []
  | [word] => if isOperator word then none else some [word]
  | word :: next :: rest =>
    if isOperator word then (joinOperators rest).map ((word ++ next) :: ·)
    else (joinOperators (next :: rest)).map (word :: ·)

def ofHyphen (o : Overflow) (start stop : List Char) : Except RangeError (List Comparator) := do
  let p ← orMalformed (Pattern.ofText? start)
  let q ← orMalformed (Pattern.ofText? stop)
  return p.atLeast ++ (← q.atMost o)

def ofWords (o : Overflow) (words : List (List Char)) : Except RangeError (List Comparator) :=
  match words with
  | [start, ['-'], stop] => ofHyphen o start stop
  | _ => do
    let terms ← orMalformed (joinOperators words)
    return (← terms.mapM (ofTerm o)).flatten

def Range.ofText (o : Overflow) (text : String) : Except RangeError Range :=
  (Text.splitDoubleBar text.toList).mapM fun cs => ofWords o (Text.words cs)

/-- Whether the version that a text writes lies in the range that a text writes; none if the program
stops. -/
def satisfies (o : Overflow) (version range : String) : Option Bool :=
  match Range.ofText o range with
  | .ok r => some ((Version.ofText? version).any r.holds)
  | .error .malformed => some false
  | .error .overflow => none

example : satisfies .stops "1.9.0" "^1.2.3" = some true ∧
    satisfies .stops "2.0.0-alpha" "^1.2.3" = some false := by decide +kernel
example : satisfies .stops "2.3.4" "1.2.3 - 2.3.4" = some true ∧
    satisfies .stops "1.5.0" ">= 1.2.3 < 2" = some true := by decide +kernel
example : satisfies .wraps "18446744073709551615.0.0" "^18446744073709551615" = some false ∧
    satisfies .stops "1.0.0" ">18446744073709551615" = none := by decide +kernel

end ScriptFold.Version
