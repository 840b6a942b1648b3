/-!
Byte ranges of a text.

Offsets count bytes of the UTF-8 form. A span that does not lie on character boundaries inside
a text covers none of it.

Offsets have no upper bound here. Where they are kept in 32 bits they are the same for texts of
less than `2 ^ 32` bytes, and what is said of offsets is meant for such texts.
-/

namespace ScriptFold

def byteLength : List Char → Nat
  | [] => 0
  | c :: cs => c.utf8Size + byteLength cs

@[simp] theorem byteLength_nil : byteLength [] = 0 := rfl

@[simp] theorem byteLength_cons (c : Char) (cs : List Char) :
    byteLength (c :: cs) = c.utf8Size + byteLength cs := rfl

@[simp] theorem byteLength_append (cs ds : List Char) :
    byteLength (cs ++ ds) = byteLength cs + byteLength ds := by
  induction cs with
  | nil => simp
  | cons c cs ih => simp [ih, Nat.add_assoc]

/-- What is left after the first `n` bytes, if they end a character. -/
def dropBytes? : Nat → List Char → Option (List Char)
  | 0, cs => some cs
  | _ + 1, [] => none
  | n + 1, c :: cs => if c.utf8Size ≤ n + 1 then dropBytes? (n + 1 - c.utf8Size) cs else none

def takeBytes? : Nat → List Char → Option (List Char)
  | 0, _ => some []
  | _ + 1, [] => none
  | n + 1, c :: cs =>
    if c.utf8Size ≤ n + 1 then (takeBytes? (n + 1 - c.utf8Size) cs).map (c :: ·) else none

structure Span where
  start : Nat
  stop : Nat
deriving DecidableEq, Repr, Inhabited

namespace Span

def nowhere : Span := ⟨0, 0⟩

/-- The smallest span that covers both. -/
def cover (s t : Span) : Span := ⟨min s.start t.start, max s.stop t.stop⟩

def length (s : Span) : Nat := s.stop - s.start

def isEmpty (s : Span) : Bool := s.stop ≤ s.start

def contains (s t : Span) : Bool := s.start ≤ t.start && t.stop ≤ s.stop

def shift (n : Nat) (s : Span) : Span := ⟨n + s.start, n + s.stop⟩

/-- The text that the span covers; nothing if it does not lie on characters of the text. -/
def slice (s : Span) (text : String) : String :=
  if s.start ≤ s.stop then
    String.ofList
      (((dropBytes? s.start text.toList).bind (takeBytes? (s.stop - s.start))).getD [])
  else ""

instance : ToString Span := ⟨fun s => s!"{s.start}..{s.stop}"⟩

theorem shift_cover (n : Nat) (s t : Span) :
    (s.cover t).shift n = (s.shift n).cover (t.shift n) := by
  simp only [cover, shift, Span.mk.injEq]
  omega

end Span

/-- How a single position is shown. -/
def showPosition (n : Nat) : String := s!"@{n}"

end ScriptFold
