/-!
The shortest decimal that reads back as a number.

A finite number is `m * 2 ^ e`. The reals that round to it form an interval, which includes its
ends when `m` is even. For one digit, two digits and so on, the two neighbours of the number on
the decimal grid with that many digits are tested; the first grid with a hit gives the digits. Of
two hits the nearer is taken. All arithmetic is on natural numbers.
-/

namespace ScriptFold.Number

inductive Tie
  | up
  | even
deriving DecidableEq, Repr

structure Decimal where
  digits : Nat
  exponent : Int
deriving DecidableEq, Repr

namespace Shortest

/-- A number and the interval that rounds to it, over one denominator. -/
structure Interval where
  low : Nat
  value : Nat
  high : Nat
  denominator : Nat
  closed : Bool

/-- `10 ^ p`, or one where `p` is negative: a power of ten is the fraction `tens p / tens (-p)`. -/
def tens (p : Int) : Nat := Nat.pow 10 p.toNat

/-- The interval of `m * 2 ^ e`, where `m` has 53 bits or `e` is the least exponent. Below a power
of two, `m = 2 ^ 52`, the numbers are twice as dense. -/
def interval (m : Nat) (e : Int) : Interval :=
  let below := if m = 4503599627370496 ∧ e > -1074 then 1 else 2
  let scale := Nat.pow 2 (e - 2).toNat
  ⟨(4 * m - below) * scale, 4 * m * scale, (4 * m + 2) * scale, Nat.pow 2 (2 - e).toNat, m % 2 = 0⟩

/-- The greatest `q` with `10 ^ q` at most `num / den`, given that it is `guess` or one more. -/
def magnitude (num den : Nat) (guess : Int) : Int :=
  let q := guess + 1
  if tens q * den ≤ num * tens (-q) then q else guess

/-- Whether `d * 10 ^ p` rounds to the number. -/
def Interval.holds (i : Interval) (d : Nat) (p : Int) : Bool :=
  let x := d * tens p * i.denominator
  let s := tens (-p)
  if i.closed then i.low * s ≤ x && x ≤ i.high * s else i.low * s < x && x < i.high * s

/-- The nearest hit on the grid with step `10 ^ p`. -/
def hit (i : Interval) (tie : Tie) (p : Int) : Option Nat :=
  let num := i.value * tens (-p)
  let den := i.denominator * tens p
  let d := num / den
  let nearer :=
    match compare (2 * (num % den)) den with
    | .lt => d
    | .gt => d + 1
    | .eq => if tie = .even ∧ d % 2 = 0 then d else d + 1
  [nearer, d, d + 1].find? fun d => 0 < d && i.holds d p

/-- The first grid with a hit, from the step `10 ^ p` down. -/
def search (i : Interval) (tie : Tie) : Nat → Int → Decimal
  | 0, p => ⟨i.value * tens (-p) / (i.denominator * tens p), p⟩
  | steps + 1, p =>
    match hit i tie p with
    | some d => ⟨d, p⟩
    | none => search i tie steps (p - 1)

end Shortest

open Shortest in
/-- The shortest decimal that reads back as `m * 2 ^ e`. Seventeen digits always suffice. -/
def shortest (tie : Tie) (m : Nat) (e : Int) : Decimal :=
  let i := interval m e
  let guess := (e + m.log2) * 30103 / 100000
  search i tie 17 (magnitude i.value i.denominator guess)

end ScriptFold.Number
