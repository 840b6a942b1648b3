import ScriptFold.Proofs.Number.Bits

/-!
Rounding to the nearest number.

A mantissa with a round bit and a sticky bit tells of a fraction its whole part, whether a half is
reached, and whether that is exact. Shifting keeps this, so that rounding at last gives the
nearest mantissa, and the even one of two that are equally near. All is said of fractions of
natural numbers.
-/

namespace ScriptFold.Number

open Float.Model (Format UnpackedFloat totalExponent)
open Float.Model.UnpackedFloat

/-! ## Fractions -/

/-- What the bits tell of the fraction `n / d`. -/
def extended (n d : Nat) : ExtendedMantissa :=
  ⟨n / d, d ≤ 2 * (n % d), n % d ≠ 0 ∧ 2 * (n % d) ≠ d⟩

/-- A fraction by its whole part and what is left. -/
theorem ofMantissaAndAccuracy_eq {n d : Nat} (hd : 0 < d) :
    ExtendedMantissa.ofMantissaAndAccuracy (n / d) (accuracyOfFraction (n % d) d) =
      extended n d := by
  unfold accuracyOfFraction extended
  by_cases hr : n % d = 0
  · have hlt : ¬d ≤ 0 := by omega
    simp [hr, hlt, ExtendedMantissa.ofMantissaAndAccuracy]
  rw [if_neg hr]
  rcases Nat.lt_trichotomy (2 * (n % d)) d with h | h | h
  · have hle : ¬d ≤ 2 * (n % d) := by omega
    simp [Nat.compare_eq_lt.2 h, hr, hle, Nat.ne_of_lt h, ExtendedMantissa.ofMantissaAndAccuracy]
  · simp [h, ExtendedMantissa.ofMantissaAndAccuracy]
  · simp [Nat.compare_eq_gt.2 h, hr, Nat.le_of_lt h, Nat.ne_of_gt h,
      ExtendedMantissa.ofMantissaAndAccuracy]

theorem shiftRightOne_extended {n d : Nat} (hd : 0 < d) :
    (extended n d).shiftRightOne = extended n (d * 2) := by
  have hmod : n % (d * 2) = n % d + d * (n / d % 2) := Nat.mod_mul
  have hlt := Nat.mod_lt n hd
  unfold extended ExtendedMantissa.shiftRightOne
  rw [hmod, Nat.div_div_eq_div_mul]
  simp only [ExtendedMantissa.mk.injEq, true_and]
  rcases Nat.mod_two_eq_zero_or_one (n / d) with h | h
  · rw [h, Nat.mul_zero, Nat.add_zero]
    constructor
    · rw [eq_comm, bne_self_eq_false, decide_eq_false_iff_not]
      omega
    · rw [← Bool.decide_or, decide_eq_decide]
      omega
  · rw [h, Nat.mul_one]
    constructor
    · rw [eq_comm]
      exact decide_eq_true (by omega)
    · rw [← Bool.decide_or, decide_eq_decide]
      omega

theorem shiftRight_extended {n d : Nat} (hd : 0 < d) (k : Nat) :
    extended n d >>> k = extended n (d * 2 ^ k) := by
  have hshift (em : ExtendedMantissa) (k : Nat) : em >>> k = k.repeat .shiftRightOne em := rfl
  rw [hshift]
  induction k with
  | zero => rw [Nat.repeat, Nat.pow_zero, Nat.mul_one]
  | succ k ih =>
    have hpos : 0 < d * 2 ^ k := Nat.mul_pos hd (Nat.two_pow_pos k)
    rw [Nat.repeat, ih, shiftRightOne_extended hpos, Nat.mul_assoc, Nat.pow_succ]

/-- A fraction within a half of a whole number is rounded to it. -/
theorem roundedMantissa_extended {n d k : Nat} (hd : 0 < d) (hlow : 2 * (d * k) ≤ 2 * n + d)
    (hhigh : 2 * n ≤ 2 * (d * k) + d)
    (hodd : k % 2 = 1 → 2 * (d * k) ≠ 2 * n + d ∧ 2 * n ≠ 2 * (d * k) + d) :
    (extended n d).roundedMantissa = k := by
  have hn : d * (n / d) + n % d = n := Nat.div_add_mod n d
  have hlt := Nat.mod_lt n hd
  have hnext : d * (n / d + 1) = d * (n / d) + d := Nat.mul_succ d (n / d)
  -- The number is the whole part of the fraction or the next one.
  have hk : k = n / d ∨ k = n / d + 1 := by
    rcases Nat.lt_trichotomy k (n / d) with h | h | h
    · have hle : d * (k + 1) ≤ d * (n / d) := Nat.mul_le_mul_left d h
      rw [Nat.mul_succ] at hle
      omega
    · exact .inl h
    · rcases Nat.lt_or_ge (n / d + 1) k with h' | h'
      · have hle : d * (n / d + 1 + 1) ≤ d * k := Nat.mul_le_mul_left d h'
        rw [Nat.mul_succ] at hle
        omega
      · exact .inr (Nat.le_antisymm h' h)
  unfold extended ExtendedMantissa.roundedMantissa
  rcases Nat.lt_trichotomy (2 * (n % d)) d with h | h | h
  · have hle : ¬d ≤ 2 * (n % d) := by omega
    have hwhole : k = n / d := by
      rcases hk with rfl | rfl
      · rfl
      · omega
    by_cases hr : n % d = 0 <;>
      simp [hle, hr, Nat.ne_of_lt h, Nat.ne_of_gt hd, ExtendedMantissa.accuracy,
        Accuracy.roundToNearestEven, hwhole]
  · have heven : k = n / d + n / d % 2 := by
      rcases hk with rfl | rfl <;> omega
    simp [h, ExtendedMantissa.accuracy, Accuracy.roundToNearestEven, heven]
  · have hup : k = n / d + 1 := by
      rcases hk with rfl | rfl
      · omega
      · rfl
    have hr : n % d ≠ 0 := by omega
    simp [Nat.le_of_lt h, hr, Nat.ne_of_gt h, ExtendedMantissa.accuracy,
      Accuracy.roundToNearestEven, hup]

/-- A fraction that is less than a power of two by a quarter at most, in steps twice as large, is
rounded up to it. -/
theorem roundedMantissa_carry {n d : Nat} (hd : 0 < d) (hshort : ¬2 * d * 2 ^ 52 ≤ n)
    (hquarter : 4 * (2 * d * 2 ^ 52) ≤ 4 * n + 2 * d) :
    (extended n d).roundedMantissa = 2 ^ 53 :=
  roundedMantissa_extended hd (by omega) (by omega) fun h => absurd h (by decide)

/-! ## Target exponents -/

theorem targetExponent_eq (m : Nat) (e : Int) :
    Format.binary64.targetExponent (totalExponent m e) = max (m.log2 + e - 52) (-1074) := by
  have hbits : (Format.binary64.mantissaBits : Int) = 53 := rfl
  have hleast : Format.binary64.minExponent = -1074 := rfl
  unfold Format.targetExponent totalExponent
  rw [hbits, hleast]
  omega

theorem log2_le_of_lt {m l : Nat} (h : m < 2 ^ (l + 1)) : m.log2 ≤ l := by
  rcases Nat.eq_zero_or_pos m with rfl | hm
  · exact Nat.zero_le l
  · exact Nat.le_of_lt_succ ((Nat.log2_lt (Nat.ne_of_gt hm)).2 h)

/-- A fraction is shifted up to its target exponent. -/
theorem shiftToTargetExponent_fraction {n d j : Nat} {e : Int} (hd : 0 < d)
    (hj : max ((n / d).log2 + e - 52) (-1074) = e + j) :
    shiftToTargetExponent .binary64 (n / d) e (accuracyOfFraction (n % d) d) =
      (extended n (d * 2 ^ j), e + j) := by
  have hamount : (e + (j : Int) - e).toNat = j := by omega
  unfold shiftToTargetExponent shiftToExponent
  simp only [targetExponent_eq, hj, hamount, ofMantissaAndAccuracy_eq hd, shiftRight_extended hd]

theorem shiftToTargetExponent_exact {m j : Nat} {e : Int}
    (hj : max (m.log2 + e - 52) (-1074) = e + j) :
    shiftToTargetExponent .binary64 m e .exact = (extended m (2 ^ j), e + j) := by
  have h := shiftToTargetExponent_fraction (n := m) (d := 1) (e := e) (j := j) Nat.one_pos
    (by rwa [Nat.div_one])
  rwa [Nat.div_one, Nat.mod_one, Nat.one_mul] at h

/-! ## Nearest numbers -/

/-- A power as a fraction of two powers, one of which is one. -/
theorem zpow_eq_div {a : ℚ} (ha : a ≠ 0) (p : Int) : a ^ p = a ^ p.toNat / a ^ (-p).toNat := by
  rw [← zpow_natCast, ← zpow_natCast, ← zpow_sub₀ ha]
  congr 1
  omega

/-- The number `x` is nearest to `m * 2 ^ e`, or equally near to it and to a number with an odd
mantissa. Below a power of two the numbers are twice as dense. -/
structure Rounds (x : ℚ) (m : Nat) (e : Int) : Prop where
  low : (m - 1 / 2) * 2 ^ e ≤ x
  high : x ≤ (m + 1 / 2) * 2 ^ e
  odd : m % 2 = 1 → (m - 1 / 2) * 2 ^ e ≠ x ∧ x ≠ (m + 1 / 2) * 2 ^ e
  dense : m = 2 ^ 52 → -1074 < e → (m - 1 / 4) * 2 ^ e ≤ x

section Scaled

variable {n d k : Nat} {e : Int} (hd : 0 < d) (a : ℚ)
include hd

theorem scaled_eq : (n / d : ℚ) * 2 ^ e = n / (d * 2 ^ k : Nat) * 2 ^ (e + k) := by
  have hd' : (d : ℚ) ≠ 0 := by exact_mod_cast hd.ne'
  rw [zpow_add₀ (by norm_num), zpow_natCast]
  push_cast
  field_simp

theorem le_scaled_iff : a * 2 ^ (e + k) ≤ (n / d : ℚ) * 2 ^ e ↔ a * (d * 2 ^ k : Nat) ≤ n := by
  have hpos : (0 : ℚ) < (d * 2 ^ k : Nat) := by exact_mod_cast Nat.mul_pos hd (Nat.two_pow_pos k)
  rw [scaled_eq hd, mul_le_mul_iff_left₀ (by positivity), le_div_iff₀ hpos]

theorem scaled_le_iff : (n / d : ℚ) * 2 ^ e ≤ a * 2 ^ (e + k) ↔ n ≤ a * (d * 2 ^ k : Nat) := by
  have hpos : (0 : ℚ) < (d * 2 ^ k : Nat) := by exact_mod_cast Nat.mul_pos hd (Nat.two_pow_pos k)
  rw [scaled_eq hd, mul_le_mul_iff_left₀ (by positivity), div_le_iff₀ hpos]

theorem eq_scaled_iff : a * 2 ^ (e + k) = (n / d : ℚ) * 2 ^ e ↔ a * (d * 2 ^ k : Nat) = n := by
  rw [le_antisymm_iff, le_scaled_iff hd, scaled_le_iff hd, ← le_antisymm_iff]

end Scaled

/-- What it says of a fraction of natural numbers, at an exponent that is no less. -/
theorem Rounds.natural {n d k m : Nat} {e : Int} (hd : 0 < d)
    (h : Rounds ((n / d : ℚ) * 2 ^ e) m (e + k)) :
    (2 * (d * 2 ^ k * m) ≤ 2 * n + d * 2 ^ k ∧ 2 * n ≤ 2 * (d * 2 ^ k * m) + d * 2 ^ k) ∧
      (m % 2 = 1 → 2 * (d * 2 ^ k * m) ≠ 2 * n + d * 2 ^ k ∧
        2 * n ≠ 2 * (d * 2 ^ k * m) + d * 2 ^ k) ∧
      (m = 2 ^ 52 → -1074 < e + k → 4 * (d * 2 ^ k * m) ≤ 4 * n + d * 2 ^ k) := by
  have hlow := (le_scaled_iff hd _).1 h.low
  have hhigh := (scaled_le_iff hd _).1 h.high
  generalize hD : d * 2 ^ k = D at *
  refine ⟨⟨?_, ?_⟩, fun hm => ?_, fun hm he => ?_⟩
  · have hq : (2 * (D * m) : ℚ) ≤ 2 * n + D := by linarith
    exact_mod_cast hq
  · have hq : (2 * n : ℚ) ≤ 2 * (D * m) + D := by linarith
    exact_mod_cast hq
  · obtain ⟨hne, hne'⟩ := h.odd hm
    constructor
    · intro heq
      have hq : (2 * (D * m) : ℚ) = 2 * n + D := by exact_mod_cast heq
      refine hne ((eq_scaled_iff hd _).2 ?_)
      rw [hD]
      linarith
    · intro heq
      have hq : (2 * n : ℚ) = 2 * (D * m) + D := by exact_mod_cast heq
      refine hne' ((eq_scaled_iff hd _).2 ?_).symm
      rw [hD]
      linarith
  · have hdense := (le_scaled_iff hd _).1 (h.dense hm he)
    rw [hD] at hdense
    have hq : (4 * (D * m) : ℚ) ≤ 4 * n + D := by linarith
    exact_mod_cast hq

/-- The exponent of a number is no less than that of a mantissa with all bits. -/
theorem Rounds.exponent_le {n d m : Nat} {e f : Int} (hd : 0 < d) (hm : m < 2 ^ 53)
    (hfull : 2 ^ 52 ≤ n / d) (h : Rounds ((n / d : ℚ) * 2 ^ f) m e) : f ≤ e := by
  have hn : (2 ^ 52 : ℚ) ≤ n / d := by
    rw [le_div_iff₀ (by exact_mod_cast hd)]
    exact_mod_cast (Nat.le_div_iff_mul_le hd).1 hfull
  have hm' : (m + 1 / 2 : ℚ) < 2 ^ 53 := by
    have hle : (m : ℚ) + 1 ≤ 2 ^ 53 := by exact_mod_cast hm
    linarith
  have hlt : (2 : ℚ) ^ f * 2 ^ 52 < 2 ^ (e + 1) * 2 ^ 52 := by
    calc (2 : ℚ) ^ f * 2 ^ 52 ≤ n / d * 2 ^ f := by
          rw [mul_comm]
          exact mul_le_mul_of_nonneg_right hn (by positivity)
      _ ≤ (m + 1 / 2) * 2 ^ e := h.high
      _ < 2 ^ 53 * 2 ^ e := mul_lt_mul_of_pos_right hm' (by positivity)
      _ = 2 ^ (e + 1) * 2 ^ 52 := by
        rw [zpow_add₀ (by norm_num)]
        ring
  have hexp : (2 : ℚ) ^ f < 2 ^ (e + 1) := lt_of_mul_lt_mul_right hlt (by positivity)
  exact Int.lt_add_one_iff.1 ((zpow_lt_zpow_iff_right₀ (by norm_num)).1 hexp)

/-- A mantissa that needs no more shifting stays as it is. -/
theorem shiftToTargetExponent_canonical {m : Nat} {e : Int} (h : Canonical m e) :
    shiftToTargetExponent .binary64 m e .exact = (extended m 1, e) := by
  have hlog : m.log2 ≤ 52 := log2_le_of_lt h.lt
  have hleast := h.least
  have hj : max ((m.log2 : Int) + e - 52) (-1074) = e + (0 : Nat) := by
    rcases h.full with hm | rfl
    · have hle : 52 ≤ m.log2 := (Nat.le_log2 (Nat.ne_of_gt h.pos)).2 hm
      omega
    · omega
  have hshift := shiftToTargetExponent_exact hj
  rwa [Nat.pow_zero, Nat.cast_zero, add_zero] at hshift

/-- A mantissa that is rounded up to one bit more is shifted once more. -/
theorem shiftToTargetExponent_carry {e : Int} (he : -1074 < e) :
    shiftToTargetExponent .binary64 (2 ^ 53) (e - 1) .exact = (extended (2 ^ 53) 2, e) := by
  have hlog : (2 ^ 53).log2 = 53 := Nat.log2_two_pow
  have hj : max (((2 ^ 53).log2 : Int) + (e - 1) - 52) (-1074) = e - 1 + (1 : Nat) := by
    rw [hlog]
    omega
  have hshift := shiftToTargetExponent_exact hj
  rwa [Nat.pow_one, Nat.cast_one, Int.sub_add_cancel] at hshift

/-- The target exponent of a fraction with all bits of a mantissa above it. -/
theorem target_of_full {n d k : Nat} {f : Int} (hd : 0 < d) (hlow : d * 2 ^ k * 2 ^ 52 ≤ n)
    (hhigh : n < d * 2 ^ k * 2 ^ 53) (hleast : -1074 ≤ f + k) :
    max ((n / d).log2 + f - 52) (-1074) = f + k := by
  have hle : 2 ^ (52 + k) ≤ n / d := by
    rw [Nat.le_div_iff_mul_le hd]
    calc 2 ^ (52 + k) * d = d * 2 ^ k * 2 ^ 52 := by ring
      _ ≤ n := hlow
  have hlt : n / d < 2 ^ (52 + k + 1) := by
    rw [Nat.div_lt_iff_lt_mul hd]
    calc n < d * 2 ^ k * 2 ^ 53 := hhigh
      _ = 2 ^ (52 + k + 1) * d := by ring
  have hne : n / d ≠ 0 := Nat.ne_of_gt (lt_of_lt_of_le (Nat.two_pow_pos _) hle)
  rw [(Nat.log2_eq_iff hne).2 ⟨hle, hlt⟩]
  omega

/-- The target exponent of a fraction below the mantissas at the least exponent. -/
theorem target_of_least {n d k : Nat} {f : Int} (hd : 0 < d) (hhigh : n < d * 2 ^ k * 2 ^ 53)
    (hleast : f + k = -1074) : max ((n / d).log2 + f - 52) (-1074) = f + k := by
  have hlt : n / d < 2 ^ (52 + k + 1) := by
    rw [Nat.div_lt_iff_lt_mul hd]
    calc n < d * 2 ^ k * 2 ^ 53 := hhigh
      _ = 2 ^ (52 + k + 1) * d := by ring
  have hlog := log2_le_of_lt hlt
  omega

theorem roundWithAccuracy_direct {n d m k : Nat} {f : Int} (s : Sign) (hd : 0 < d)
    (hcanonical : Canonical m (f + k)) (hk : max ((n / d).log2 + f - 52) (-1074) = f + k)
    (hm : (extended n (d * 2 ^ k)).roundedMantissa = m) :
    roundWithAccuracy .binary64 s (n / d) f (accuracyOfFraction (n % d) d) =
      .finite s m (f + k) hcanonical.pos := by
  have hmantissa : (extended m 1).mantissa = m := Nat.div_one m
  unfold roundWithAccuracy
  simp only [shiftToTargetExponent_fraction hd hk, hm, shiftToTargetExponent_canonical hcanonical,
    hmantissa, Nat.ne_of_gt hcanonical.pos, dite_false]

theorem roundWithAccuracy_carry {n d k : Nat} {f : Int} (s : Sign) (hd : 0 < d)
    (hk : max ((n / d).log2 + f - 52) (-1074) = f + k)
    (hm : (extended n (d * 2 ^ k)).roundedMantissa = 2 ^ 53) :
    roundWithAccuracy .binary64 s (n / d) f (accuracyOfFraction (n % d) d) =
      .finite s (2 ^ 52) (f + k + 1) (by decide) := by
  have hshift := shiftToTargetExponent_carry (e := f + k + 1) (by omega)
  rw [Int.add_sub_cancel] at hshift
  have hmantissa : (extended (2 ^ 53) 2).mantissa = 2 ^ 52 := rfl
  unfold roundWithAccuracy
  simp only [shiftToTargetExponent_fraction hd hk, hm, hshift, hmantissa]
  rfl

/-- A fraction that is not far below a power of two is rounded up to it. -/
theorem roundWithAccuracy_short {n d k : Nat} {f : Int} (s : Sign) (hd : 0 < d)
    (hleast : -1074 < f + (k + 1 : Nat)) (hshort : ¬d * 2 ^ (k + 1) * 2 ^ 52 ≤ n)
    (hquarter : 4 * (d * 2 ^ (k + 1) * 2 ^ 52) ≤ 4 * n + d * 2 ^ (k + 1)) :
    roundWithAccuracy .binary64 s (n / d) f (accuracyOfFraction (n % d) d) =
      .finite s (2 ^ 52) (f + (k + 1 : Nat)) (by decide) := by
  have hdouble : d * 2 ^ (k + 1) = 2 * (d * 2 ^ k) := by ring
  rw [hdouble] at hshort hquarter
  have hD : 0 < d * 2 ^ k := Nat.mul_pos hd (Nat.two_pow_pos k)
  have htarget := target_of_full (f := f) hd (k := k) (n := n) (by omega) (by omega)
    (by push_cast at hleast; omega)
  have hresult := roundWithAccuracy_carry s hd htarget (roundedMantissa_carry hD hshort hquarter)
  rwa [add_assoc] at hresult

/-- Rounding a fraction gives the number that it rounds to. -/
theorem roundWithAccuracy_eq {n d m : Nat} {e f : Int} (s : Sign) (hd : 0 < d)
    (hcanonical : Canonical m e) (hfull : 2 ^ 52 ≤ n / d ∨ f ≤ -1074)
    (h : Rounds ((n / d : ℚ) * 2 ^ f) m e) :
    roundWithAccuracy .binary64 s (n / d) f (accuracyOfFraction (n % d) d) =
      .finite s m e hcanonical.pos := by
  have hleast := hcanonical.least
  have hlt := hcanonical.lt
  have hle : f ≤ e := by
    rcases hfull with hfull | hf
    · exact h.exponent_le hd hlt hfull
    · omega
  obtain ⟨k, rfl⟩ := Int.le.dest hle
  obtain ⟨⟨hlow, hhigh⟩, hodd, hdense⟩ := h.natural hd
  have hD : 0 < d * 2 ^ k := Nat.mul_pos hd (Nat.two_pow_pos k)
  have hbelow : n < d * 2 ^ k * 2 ^ 53 := by
    have hmul : d * 2 ^ k * (m + 1) ≤ d * 2 ^ k * 2 ^ 53 := Nat.mul_le_mul_left _ hlt
    rw [Nat.mul_succ] at hmul
    omega
  have hrounded := roundedMantissa_extended hD hlow hhigh hodd
  by_cases he : f + k = -1074
  · exact roundWithAccuracy_direct s hd hcanonical (target_of_least hd hbelow he) hrounded
  by_cases hreach : d * 2 ^ k * 2 ^ 52 ≤ n
  · exact roundWithAccuracy_direct s hd hcanonical (target_of_full hd hreach hbelow hleast) hrounded
  -- What is left is less than the least mantissa with all bits by a quarter at most.
  have hpower : m = 2 ^ 52 := by
    have hge : 2 ^ 52 ≤ m := hcanonical.full.resolve_right he
    rcases Nat.eq_or_lt_of_le hge with heq | hgt
    · exact heq.symm
    · have hmul : d * 2 ^ k * (2 ^ 52 + 1) ≤ d * 2 ^ k * m := Nat.mul_le_mul_left _ hgt
      rw [Nat.mul_succ] at hmul
      omega
  subst hpower
  have hne : k ≠ 0 := by
    rintro rfl
    rcases hfull with hfull | hf
    · rw [Nat.le_div_iff_mul_le hd] at hfull
      rw [Nat.pow_zero, Nat.mul_one] at hreach
      omega
    · omega
  obtain ⟨j, rfl⟩ := Nat.exists_eq_succ_of_ne_zero hne
  exact roundWithAccuracy_short s hd (by omega) hreach (hdense rfl (by omega))

end ScriptFold.Number
