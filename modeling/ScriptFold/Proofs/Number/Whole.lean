import ScriptFold.Proofs.Number.Fewest
import ScriptFold.Proofs.Number.ReadBack

/-!
Texts of whole numbers.

A natural number of at most 53 bits is a number by itself, and no other natural number rounds to it.
So the search stops on a grid of natural numbers, and the text is the written number.
-/

namespace ScriptFold.Number

open Shortest

variable {m n : Nat} {e : Int}

theorem exponent_le_zero (h : Canonical m e) (hvalue : (m * 2 ^ e : ℚ) = n) (hn : n < 2 ^ 53) :
    e ≤ 0 := by
  refine Int.not_lt.1 fun he => ?_
  have hfull : 2 ^ 52 ≤ m := h.full.resolve_right (by omega)
  have htwo : (2 : ℚ) ≤ 2 ^ e := by
    calc (2 : ℚ) = 2 ^ (1 : Int) := (zpow_one 2).symm
      _ ≤ 2 ^ e := zpow_le_zpow_right₀ (by norm_num) he
  have hlarge : (2 ^ 52 * 2 : ℚ) ≤ n := by
    rw [← hvalue]
    exact mul_le_mul (by exact_mod_cast hfull) htwo (by norm_num) (by positivity)
  have hlarge' : 2 ^ 52 * 2 ≤ n := by exact_mod_cast hlarge
  omega

/-- Of the natural numbers only itself rounds to it. -/
theorem Rounds.eq_of_nat {k : Nat} (h : Rounds k m e) (hvalue : (m * 2 ^ e : ℚ) = n) (he : e ≤ 0) :
    k = n := by
  have hpos : (0 : ℚ) < 2 ^ e := by positivity
  have hone : (2 : ℚ) ^ e ≤ 1 := zpow_le_one_of_nonpos₀ (by norm_num) he
  have hlow := h.low
  have hhigh := h.high
  rw [sub_mul, hvalue] at hlow
  rw [add_mul, hvalue] at hhigh
  have hle : (n : ℚ) < k + 1 := by linarith
  have hge : (k : ℚ) < n + 1 := by linarith
  have hle' : n < k + 1 := by exact_mod_cast hle
  have hge' : k < n + 1 := by exact_mod_cast hge
  omega

/-- The search stops on a grid of natural numbers. -/
theorem shortest_of_nat (tie : Tie) (h : Canonical m e) (hvalue : (m * 2 ^ e : ℚ) = n)
    (hn : n < 2 ^ 53) : 0 ≤ (shortest tie m e).exponent ∧
      (shortest tie m e).digits * 10 ^ (shortest tie m e).exponent.toNat = n := by
  have hfirst := firstHit_shortest tie h
  obtain ⟨-, hrounds⟩ := rounds_shortest tie h
  have hpos : 0 < n := by
    have hprod : (0 : ℚ) < m * 2 ^ e := mul_pos (by exact_mod_cast h.pos) (by positivity)
    rw [hvalue] at hprod
    exact_mod_cast hprod
  generalize shortest tie m e = r at *
  have hexponent : 0 ≤ r.exponent := by
    refine Int.not_lt.1 fun hlt => ?_
    rcases hfirst.first with hstart | hnone
    · have hstep := lt_zpow_start h
      have hle : (10 : ℚ) ^ (start m e + 1) ≤ 1 :=
        zpow_le_one_of_nonpos₀ (by norm_num) (by omega)
      have hone : (1 : ℚ) ≤ n := by exact_mod_cast hpos
      rw [hvalue] at hstep
      linarith
    · -- The number itself is on the next grid.
      obtain ⟨d, hd, hle⟩ := exists_on_finer n (p := r.exponent + 1) (q := 0) (by omega)
      have hself := Rounds.self m e
      rw [hvalue, ← mul_one (n : ℚ), ← zpow_zero (10 : ℚ), ← hd] at hself
      obtain ⟨d', hhit⟩ := hit_of_rounds tie h.pos (by omega) hself
      rw [hnone] at hhit
      cases hhit
  refine ⟨hexponent, Rounds.eq_of_nat ?_ hvalue (exponent_le_zero h hvalue hn)⟩
  have hcast : ((r.digits * 10 ^ r.exponent.toNat : Nat) : ℚ) = r.digits * 10 ^ r.exponent := by
    obtain ⟨k, hk⟩ := Int.eq_ofNat_of_zero_le hexponent
    rw [hk, Int.toNat_natCast, zpow_natCast]
    push_cast
    rfl
  rwa [hcast]

theorem writeDecimal_of_nat {d : Decimal} (hexponent : 0 ≤ d.exponent)
    (hvalue : d.digits * 10 ^ d.exponent.toNat = n) (hpos : 0 < n) (hn : n < 10 ^ 21) :
    Layout.script.writeDecimal d = Nat.toDigits 10 n := by
  have hdigits : 0 < d.digits := by
    refine Nat.pos_of_ne_zero fun hzero => ?_
    rw [hzero, Nat.zero_mul] at hvalue
    omega
  obtain ⟨k, hlength, hcoefficient⟩ := d.digits_eq
  have hne := Decimal.written_ne_nil hdigits
  have hwritten := List.length_pos_iff.2 hne
  have hbound : 10 ^ (d.written.length + k - 1 + d.exponent.toNat) < 10 ^ 21 := by
    have hpow := pow_le_of_toDigits hdigits
    rw [hlength] at hpow
    refine lt_of_le_of_lt ?_ hn
    rw [Nat.pow_add, ← hvalue]
    exact Nat.mul_le_mul_right _ hpow
  have hlead : d.lead = (d.written.length + k - 1 + d.exponent.toNat : Nat) := by
    rw [Decimal.lead, hlength]
    omega
  have hlt := (Nat.pow_lt_pow_iff_right (by decide)).1 hbound
  have htext : Layout.script.writeDecimal d = d.written ++ zeros (k + d.exponent.toNat) := by
    have hint : (d.lead + 1).toNat = d.written.length + (k + d.exponent.toNat) := by omega
    have hrange : Layout.script.least ≤ d.lead ∧ d.lead ≤ Layout.script.greatest := by
      simp only [Layout.script]
      omega
    rw [Decimal.writeDecimal_eq]
    unfold Layout.write
    rw [if_pos hrange, if_neg (by omega)]
    dsimp only
    rw [hint, if_pos (Nat.le_add_right _ _), Nat.add_sub_cancel_left]
    exact List.append_nil _
  rw [htext, eq_comm, toDigits_eq_iff]
  refine ⟨List.append_ne_nil_of_left_ne_nil hne _,
    allDigits_append d.allDigits_written (allDigits_zeros _), fun hhead => ?_, ?_⟩
  · rw [List.head?_append_of_ne_nil _ hne] at hhead
    exact absurd hhead (Decimal.head?_written hdigits)
  · rw [ofDigits_append_zeros, ← hvalue, hcoefficient, Nat.pow_add]
    ring

/-- **The text of a natural number is the written number.** -/
theorem toText_ofNat (hn : n < 2 ^ 53) : toText (Float.ofNat n) = toString n := by
  rcases Nat.eq_zero_or_pos n with rfl | hpos
  · decide +kernel
  obtain ⟨m, e, h, -, hvalue, -⟩ := normalize_eq hpos hn
  have hself := Rounds.self m e
  rw [hvalue, ← mul_one (n : ℚ), ← zpow_zero (10 : ℚ)] at hself
  have hfloat : Float.ofNat n = .ofModel (.pack (.finite .positive m e h.pos)) := by
    rw [← ofDecimal_zero, ofDecimal_eq h hself]
  obtain ⟨hexponent, hdigits⟩ := shortest_of_nat .up h hvalue hn
  have htext := writeDecimal_of_nat hexponent hdigits hpos (hn.trans (by norm_num))
  unfold toText
  rw [hfloat, unpack_ofModel .positive h, Nat.toString_eq_ofList_toDigits, ← htext]
  rfl

end ScriptFold.Number
