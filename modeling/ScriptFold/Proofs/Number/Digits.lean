import Mathlib.Algebra.Group.Nat.Defs
import ScriptFold.Number.Layout
import ScriptFold.Proofs.Literal.Numerals

/-!
Digits and the natural numbers that they denote.

A natural number is written with no zero in front, except for zero itself. Digits that are so are
the written digits of the number that they denote.
-/

namespace ScriptFold.Number

/-! ## Values -/

theorem ofDigits_eq (ds : List Char) : ofDigits ds = Nat.ofDigitChars 10 ds 0 :=
  Nat.ofDigitChars_eq_foldl.symm

theorem ofDigits_append (ds es : List Char) :
    ofDigits (ds ++ es) = 10 ^ es.length * ofDigits ds + ofDigits es := by
  rw [ofDigits_eq, ofDigits_eq, ofDigits_eq, Nat.ofDigitChars_append,
    Nat.ofDigitChars_eq_ofDigitChars_zero]

theorem ofDigits_zeros (n : Nat) : ofDigits (zeros n) = 0 := by
  rw [ofDigits_eq, zeros, Nat.ofDigitChars_replicate_zero, Nat.mul_zero]

theorem ofDigits_toDigits (n : Nat) : ofDigits (Nat.toDigits 10 n) = n := by
  rw [ofDigits_eq, Nat.ofDigitChars_ten_toDigits]

theorem allDigits_toDigits (n : Nat) : AllDigits (Nat.toDigits 10 n) := fun _ hc =>
  Nat.isDigit_of_mem_toDigits (by decide) (by decide) hc

theorem allDigits_append {ds es : List Char} (hds : AllDigits ds) (hes : AllDigits es) :
    AllDigits (ds ++ es) := by
  intro c hc
  rcases List.mem_append.1 hc with hc | hc
  · exact hds c hc
  · exact hes c hc

theorem allDigits_zeros (n : Nat) : AllDigits (zeros n) := by
  intro c hc
  rw [List.eq_of_mem_replicate hc]
  decide

theorem ofDigits_append_zeros (ds : List Char) (n : Nat) :
    ofDigits (ds ++ zeros n) = 10 ^ n * ofDigits ds := by
  rw [ofDigits_append, ofDigits_zeros, Nat.add_zero, zeros, List.length_replicate]

/-! ## Written digits -/

theorem digit_spec {c : Char} (h : c.isDigit) : Nat.toDigits 10 (c.toNat - '0'.toNat) = [c] ∧
    c.toNat - '0'.toNat < 10 ∧ (c ≠ '0' → 0 < c.toNat - '0'.toNat) := by
  have hbounds := digit_bounds h
  have hzero : '0'.toNat = 48 := rfl
  have hlt : c.toNat - '0'.toNat < 10 := by omega
  refine ⟨?_, hlt, fun hne => ?_⟩
  · rw [Nat.toDigits_of_lt_base hlt, List.singleton_inj]
    refine Char.toNat_inj.1 ?_
    rw [Nat.toNat_digitChar_of_lt_ten hlt]
    omega
  · have hne' : c.toNat ≠ '0'.toNat := fun heq => hne (Char.toNat_inj.1 heq)
    omega

theorem head?_toDigits_ne {n : Nat} (h : 0 < n) : (Nat.toDigits 10 n).head? ≠ some '0' := by
  induction n using Nat.strongRecOn with
  | ind n ih =>
    by_cases hn : n < 10
    · rw [Nat.toDigits_of_lt_base hn, List.head?_singleton, Ne, Option.some.injEq,
        Nat.digitChar_eq_zero]
      omega
    · obtain ⟨c, cs, hfront⟩ := List.exists_cons_of_ne_nil (Nat.toDigits_ne_nil (n := n / 10))
      have hhead := ih (n / 10) (by omega) (by omega)
      rw [Nat.toDigits_of_base_le (by decide) (by omega), hfront]
      rwa [hfront] at hhead

/-- The first digit of a number counts a power of ten. -/
theorem pow_le_of_toDigits {n : Nat} (h : 0 < n) : 10 ^ ((Nat.toDigits 10 n).length - 1) ≤ n := by
  rcases Nat.eq_zero_or_pos ((Nat.toDigits 10 n).length - 1) with hone | hmore
  · rwa [hone, Nat.pow_zero]
  · refine Nat.le_of_not_lt fun hlt => ?_
    have hlength := (Nat.length_toDigits_le_iff (by decide) hmore).2 hlt
    omega

theorem lt_pow_of_toDigits (n : Nat) : n < 10 ^ (Nat.toDigits 10 n).length :=
  (Nat.length_toDigits_le_iff (by decide) Nat.length_toDigits_pos).1 (Nat.le_refl _)

theorem toDigits_append {n : Nat} {cs : List Char} (hn : 0 < n) (hcs : AllDigits cs) :
    Nat.toDigits 10 n ++ cs = Nat.toDigits 10 (Nat.ofDigitChars 10 cs n) := by
  induction cs generalizing n with
  | nil => rw [Nat.ofDigitChars_nil, List.append_nil]
  | cons c cs ih =>
    obtain ⟨hwritten, hlt, -⟩ := digit_spec (hcs c List.mem_cons_self)
    have hrest : AllDigits cs := fun d hd => hcs d (List.mem_cons_of_mem c hd)
    calc Nat.toDigits 10 n ++ c :: cs = Nat.toDigits 10 n ++ [c] ++ cs := by simp
      _ = Nat.toDigits 10 (10 * n + (c.toNat - '0'.toNat)) ++ cs := by
        rw [← hwritten, Nat.toDigits_append_toDigits (by decide) hn hlt]
      _ = _ := ih (by omega) hrest

/-- Digits without a zero in front are the written digits of the number that they denote. -/
theorem toDigits_ofDigits {cs : List Char} (hne : cs ≠ []) (hcs : AllDigits cs)
    (hzero : cs.head? = some '0' → cs.length = 1) : Nat.toDigits 10 (ofDigits cs) = cs := by
  obtain ⟨c, cs, rfl⟩ := List.exists_cons_of_ne_nil hne
  obtain ⟨hwritten, -, hpos⟩ := digit_spec (hcs c List.mem_cons_self)
  have hrest : AllDigits cs := fun d hd => hcs d (List.mem_cons_of_mem c hd)
  have hvalue : ofDigits (c :: cs) = Nat.ofDigitChars 10 cs (c.toNat - '0'.toNat) := by
    rw [Nat.ofDigitChars_eq_foldl, ofDigits, List.foldl_cons, Nat.mul_zero, Nat.zero_add]
  by_cases hc : c = '0'
  · subst hc
    obtain rfl : cs = [] := by simpa using hzero rfl
    rfl
  · rw [hvalue, ← toDigits_append (hpos hc) hrest, hwritten, List.singleton_append]

/-- The written digits of a number: digits that denote it, with no zero in front of others. -/
theorem toDigits_eq_iff {n : Nat} {cs : List Char} : Nat.toDigits 10 n = cs ↔
    cs ≠ [] ∧ AllDigits cs ∧ (cs.head? = some '0' → cs.length = 1) ∧ ofDigits cs = n := by
  constructor
  · rintro rfl
    refine ⟨Nat.toDigits_ne_nil, allDigits_toDigits n, fun hzero => ?_, ofDigits_toDigits n⟩
    rcases Nat.eq_zero_or_pos n with rfl | hn
    · rfl
    · exact absurd hzero (head?_toDigits_ne hn)
  · rintro ⟨hne, hcs, hzero, rfl⟩
    exact toDigits_ofDigits hne hcs hzero

end ScriptFold.Number
