import ScriptFold.Proofs.Number.Shortest
import ScriptFold.Proofs.Number.Texts

/-!
Numbers read back from their texts.

The text of a finite number is a sign, if it is negative, and a numeral that reads as the number
without the sign. No number is lost: the shortest digits round to the number, and a numeral is
read as the number that it rounds to.
-/

namespace ScriptFold.Number

open Float.Model (UnpackedFloat)
open Float.Model.UnpackedFloat (Sign)

def isNegative (x : Float) : Bool :=
  match x.toModel.unpack with
  | .zero .negative | .finite .negative .. => true
  | _ => false

def size (x : Float) : Float := if isNegative x then -x else x

/-! ## Signs -/

theorem neg_eq (x : Float) : -x = .ofModel (.pack x.toModel.unpack.neg) := rfl

theorem neg_neg_of_unpack {x : Float} {u : UnpackedFloat} (h : x.toModel.unpack = u)
    (hx : x = .ofModel (.pack u.neg.neg)) (hneg : (Float.Model.pack u.neg).unpack = u.neg) :
    - -x = x := by
  rw [neg_eq, neg_eq x, h, hneg, ← hx]

theorem neg_size {x : Float} (h : isNegative x) : -size x = x := by
  rw [size, if_pos h]
  unfold isNegative at h
  split at h
  · rename_i hx
    exact neg_neg_of_unpack hx (eq_of_unpack hx) rfl
  · rename_i m e hm hx
    exact neg_neg_of_unpack hx (eq_of_unpack hx)
      (unpack_ofModel .positive (canonical_of_unpack hx))
  · cases h

theorem isNegative_of_finite {x : Float} {s : Sign} {m : Nat} {e : Int}
    {hm : 0 < m} (h : x.toModel.unpack = .finite s m e hm) : isNegative x = (s == .negative) := by
  unfold isNegative
  rw [h]
  cases s <;> rfl

theorem size_of_finite {x : Float} {s : Sign} {m : Nat} {e : Int}
    {hm : 0 < m} (h : x.toModel.unpack = .finite s m e hm) :
    size x = .ofModel (.pack (.finite .positive m e hm)) := by
  rw [size, isNegative_of_finite h]
  cases s with
  | positive => exact eq_of_unpack h
  | negative =>
    rw [neg_eq, h]
    rfl

/-! ## Texts -/

theorem isNumeral_natText (n : Nat) : IsNumeral (Nat.toDigits 10 n) := by
  have h := denotes_whole Nat.toDigits_ne_nil (allDigits_toDigits n) (.inl rfl) rfl
  rw [List.append_nil] at h
  exact h.numeral

theorem ofDecimal_zero (n : Nat) : ofDecimal n 0 = Float.ofNat n := by
  rcases Nat.eq_zero_or_pos n with rfl | hn
  · decide +kernel
  · unfold ofDecimal
    rw [if_neg (by omega), if_neg (by decide)]
    rfl

/-- The digits of a natural number read as the number that the number converts to. -/
theorem readUnsigned_natText (n : Nat) :
    readUnsigned (Nat.toDigits 10 n) = some (Float.ofNat n) := by
  have h := denotes_whole Nat.toDigits_ne_nil (allDigits_toDigits n) (.inl rfl) rfl
  rw [List.append_nil, ofDigits_toDigits] at h
  rw [h.read, ofDecimal_zero]

/-- The text of the shortest digits denotes them, and reads as the number without its sign. -/
theorem Layout.denotes_shortest (l : Layout) {x : Float} {s : Sign} {m : Nat} {e : Int} {hm : 0 < m}
    (hx : x.toModel.unpack = .finite s m e hm) : ∃ c q,
      Denotes (l.writeDecimal (shortest l.tie m e)) c q ∧
      (c * 10 ^ q : ℚ) = (shortest l.tie m e).digits * 10 ^ (shortest l.tie m e).exponent ∧
      readUnsigned (l.writeDecimal (shortest l.tie m e)) = some (size x) := by
  have hcanonical := canonical_of_unpack hx
  obtain ⟨hpos, hrounds⟩ := rounds_shortest l.tie hcanonical
  obtain ⟨c, q, hdenotes, hvalue⟩ := l.denotes_writeDecimal hpos
  refine ⟨c, q, hdenotes, hvalue, ?_⟩
  rw [hdenotes.read, ofDecimal_eq hcanonical (by rwa [hvalue]), size_of_finite hx]

end ScriptFold.Number
