import ScriptFold.Number.Decimal
import ScriptFold.Proofs.Number.Rounding

/-!
Decimals are read as the nearest number.

A product, a quotient and a power of ten scaled by a coefficient are computed with enough bits and
then rounded. A coefficient of at most 53 bits and a power of ten up to the 22nd are numbers
themselves, so that one multiplication or division is as good as the exact computation.
-/

namespace ScriptFold.Number

open Float.Model (Format UnpackedFloat totalExponent)
open Float.Model.UnpackedFloat

/-! ## Operations -/

theorem Rounds.self (m : Nat) (e : Int) : Rounds (m * 2 ^ e) m e := by
  have hpos : (0 : ℚ) < 2 ^ e := by positivity
  refine ⟨?_, ?_, fun _ => ⟨?_, ?_⟩, fun _ _ => ?_⟩
  · nlinarith
  · nlinarith
  · intro h
    nlinarith
  · intro h
    nlinarith
  · nlinarith

theorem roundWithAccuracy_exact {n m : Nat} {e f : Int} (s : Sign) (hcanonical : Canonical m e)
    (hfull : 2 ^ 52 ≤ n) (h : Rounds (n * 2 ^ f) m e) :
    roundWithAccuracy .binary64 s n f .exact = .finite s m e hcanonical.pos := by
  have hround := roundWithAccuracy_eq (n := n) (d := 1) (f := f) s Nat.one_pos hcanonical
    (.inl (by rwa [Nat.div_one])) (by rwa [Nat.cast_one, div_one])
  rwa [Nat.div_one, Nat.mod_one] at hround

theorem mul_eq {m₁ m₂ m : Nat} {e₁ e₂ e : Int} (h₁ : 0 < m₁) (h₂ : 0 < m₂) (h : Canonical m e)
    (hfull : 2 ^ 52 ≤ m₁ * m₂) (hx : Rounds ((m₁ * 2 ^ e₁) * (m₂ * 2 ^ e₂)) m e) :
    UnpackedFloat.mul .binary64 (.finite .positive m₁ e₁ h₁) (.finite .positive m₂ e₂ h₂) =
      .finite .positive m e h.pos := by
  refine roundWithAccuracy_exact .positive h hfull ?_
  have hvalue : ((m₁ * m₂ : Nat) : ℚ) * 2 ^ (e₁ + e₂) = (m₁ * 2 ^ e₁) * (m₂ * 2 ^ e₂) := by
    rw [zpow_add₀ (by norm_num)]
    push_cast
    ring
  rwa [hvalue]

/-- A quotient has all bits of a mantissa if the dividend has 53 bits more. -/
theorem full_quotient {m₁ m₂ k : Nat} (h₁ : 0 < m₁) (h₂ : 0 < m₂)
    (hk : m₂.log2 + 53 ≤ m₁.log2 + k) : 2 ^ 52 ≤ m₁ * 2 ^ k / m₂ := by
  have hlow : 2 ^ m₁.log2 ≤ m₁ := Nat.log2_self_le (Nat.ne_of_gt h₁)
  have hhigh : m₂ < 2 ^ (m₂.log2 + 1) := Nat.lt_log2_self
  rw [Nat.le_div_iff_mul_le h₂]
  calc 2 ^ 52 * m₂ ≤ 2 ^ 52 * 2 ^ (m₂.log2 + 1) := Nat.mul_le_mul_left _ (Nat.le_of_lt hhigh)
    _ = 2 ^ (52 + (m₂.log2 + 1)) := (Nat.pow_add 2 52 _).symm
    _ ≤ 2 ^ (m₁.log2 + k) := Nat.pow_le_pow_right (by decide) (by omega)
    _ = 2 ^ m₁.log2 * 2 ^ k := Nat.pow_add 2 _ k
    _ ≤ m₁ * 2 ^ k := Nat.mul_le_mul_right _ hlow

theorem div_eq {m₁ m₂ m : Nat} {e₁ e₂ e : Int} (h₁ : 0 < m₁) (h₂ : 0 < m₂) (h : Canonical m e)
    (hx : Rounds ((m₁ * 2 ^ e₁) / (m₂ * 2 ^ e₂)) m e) :
    UnpackedFloat.div .binary64 (.finite .positive m₁ e₁ h₁) (.finite .positive m₂ e₂ h₂) =
      .finite .positive m e h.pos := by
  have htarget : Format.binary64.targetExponent (totalExponent m₁ e₁ - totalExponent m₂ e₂) =
      max (m₁.log2 + e₁ - (m₂.log2 + e₂) - 53) (-1074) := by
    have hbits : (Format.binary64.mantissaBits : Int) = 53 := rfl
    have hleast : Format.binary64.minExponent = -1074 := rfl
    unfold Format.targetExponent totalExponent
    rw [hbits, hleast]
    omega
  obtain ⟨k, hk⟩ : ∃ k : Nat, min (e₁ - e₂) (max (m₁.log2 + e₁ - (m₂.log2 + e₂) - 53) (-1074)) =
      e₁ - e₂ - k := by
    obtain ⟨k, hk⟩ := Int.le.dest (min_le_left (e₁ - e₂)
      (max (m₁.log2 + e₁ - (m₂.log2 + e₂) - 53) (-1074)))
    exact ⟨k, by omega⟩
  have hfull : 2 ^ 52 ≤ m₁ * 2 ^ k / m₂ ∨ e₁ - e₂ - k ≤ -1074 := by
    refine (em _).imp_right fun hfew => ?_
    have hsum := mt (full_quotient h₁ h₂) hfew
    omega
  have hamount : (e₁ - e₂ - (e₁ - e₂ - (k : Int))).toNat = k := by omega
  simp only [UnpackedFloat.div, divCore, htarget, hk, hamount, Nat.shiftLeft_eq]
  refine roundWithAccuracy_eq .positive h₂ h hfull ?_
  have hvalue : ((m₁ * 2 ^ k : Nat) / m₂ : ℚ) * 2 ^ (e₁ - e₂ - k) =
      (m₁ * 2 ^ e₁) / (m₂ * 2 ^ e₂) := by
    rw [zpow_sub₀ (by norm_num), zpow_sub₀ (by norm_num), zpow_natCast]
    push_cast
    have hm₂ : (m₂ : ℚ) ≠ 0 := by exact_mod_cast h₂.ne'
    field_simp
  rwa [hvalue]

/-! ## Coefficients and powers of ten -/

def isExactly (x : Float) (n : Nat) : Bool :=
  match x.toModel.unpack with
  | .finite .positive m e _ => 2 ^ 52 ≤ m && m * 2 ^ e.toNat == n * 2 ^ (-e).toNat
  | _ => false

theorem isExactly_iff {x : Float} {n : Nat} : isExactly x n ↔ ∃ m e, ∃ hm : 0 < m,
    x.toModel.unpack = .finite .positive m e hm ∧ 2 ^ 52 ≤ m ∧ (m * 2 ^ e : ℚ) = n := by
  have hvalue (m : Nat) (e : Int) :
      m * 2 ^ e.toNat = n * 2 ^ (-e).toNat ↔ (m * 2 ^ e : ℚ) = n := by
    rw [zpow_eq_div (by norm_num), mul_div_assoc', div_eq_iff (by positivity)]
    exact_mod_cast Iff.rfl
  unfold isExactly
  split
  · rename_i m e hm hx
    rw [Bool.and_eq_true, decide_eq_true_iff, beq_iff_eq, hvalue]
    constructor
    · intro h
      exact ⟨m, e, hm, hx, h⟩
    · rintro ⟨m', e', hm', hx', h⟩
      rw [hx] at hx'
      cases hx'
      exact h
  · rename_i hnot
    refine iff_of_false (by decide) ?_
    rintro ⟨m, e, hm, hx, -⟩
    exact hnot m e hm hx

theorem isExactly_powerOfTen : ∀ k : Fin Float.exactlyRepresentablePowersOfTen.size,
    isExactly Float.exactlyRepresentablePowersOfTen[k] (10 ^ k.val) := by
  decide +kernel

/-- A natural number of at most 53 bits is shifted until it has all bits of a mantissa. -/
theorem normalize_eq {c : Nat} (hc : 0 < c) (hlt : c < 2 ^ 53) :
    ∃ m e, ∃ h : Canonical m e, 2 ^ 52 ≤ m ∧ (m * 2 ^ e : ℚ) = c ∧
      UnpackedFloat.normalize .binary64 c 0 .positive = .finite .positive m e h.pos := by
  have hlow : 2 ^ c.log2 ≤ c := Nat.log2_self_le (Nat.ne_of_gt hc)
  have hhigh : c < 2 ^ (c.log2 + 1) := Nat.lt_log2_self
  obtain ⟨k, hk⟩ := Nat.le.dest (log2_le_of_lt hlt)
  have hfull : 2 ^ 52 ≤ c * 2 ^ k := by
    rw [← hk, Nat.pow_add]
    exact Nat.mul_le_mul_right _ hlow
  have hbits : c * 2 ^ k < 2 ^ 53 := by
    have hsum : 2 ^ 53 = 2 ^ (c.log2 + 1) * 2 ^ k := by
      rw [← Nat.pow_add]
      congr 1
      omega
    rw [hsum]
    exact Nat.mul_lt_mul_of_pos_right hhigh (Nat.two_pow_pos k)
  have hcanonical : Canonical (c * 2 ^ k) (-k) :=
    ⟨by omega, hbits, by omega, by omega, .inl hfull⟩
  have hvalue : ((c * 2 ^ k : Nat) * 2 ^ (-k : Int) : ℚ) = c := by
    push_cast
    rw [zpow_neg, zpow_natCast, mul_assoc, mul_inv_cancel₀ (by positivity), mul_one]
  have htarget : max ((c.log2 : Int) + 0 - 52) (-1074) = -k := by omega
  have hcompare : compare (c : Int) 0 = .gt := Int.compare_eq_gt.2 (by omega)
  have hround := roundWithAccuracy_exact .positive hcanonical hfull (Rounds.self _ _)
  refine ⟨c * 2 ^ k, -k, hcanonical, hfull, hvalue, ?_⟩
  unfold UnpackedFloat.normalize UnpackedFloat.round decreaseExponent
  simp only [hcompare, targetExponent_eq, htarget, Int.toNat_natCast, neg_neg, zero_sub,
    Nat.shiftLeft_eq]
  exact hround

theorem isExactly_toFloat {c : Nat} (hc : 0 < c) (hlt : c < 2 ^ 53) :
    isExactly c.toUInt64.toFloat c := by
  obtain ⟨m, e, h, hfull, hvalue, hnormalize⟩ := normalize_eq hc hlt
  have hword : c.toUInt64.toNat = c := UInt64.toNat_ofNat_of_lt' (lt_trans hlt (by decide))
  have hfloat : c.toUInt64.toFloat.toModel = .pack (.finite .positive m e h.pos) := by
    rw [← hnormalize]
    conv_rhs => rw [← hword]
    rfl
  exact isExactly_iff.2 ⟨m, e, h.pos, by rw [hfloat, unpack_ofModel .positive h], hfull, hvalue⟩

/-! ## Decimals -/

variable {c m : Nat} {e : Int}

/-- The exact computation of a decimal. -/
theorem ofScientific_exact {q : Int} (hc : 0 < c) (hlow : -(2 ^ 11 + c.log2 : Int) ≤ q)
    (hhigh : q ≤ 2 ^ 11) (h : Canonical m e) (hx : Rounds (c * 10 ^ q) m e) :
    UnpackedFloat.ofScientific .binary64 c q = .finite .positive m e h.pos := by
  unfold UnpackedFloat.ofScientific
  rw [dif_neg (Nat.ne_of_gt hc), if_neg (not_lt.2 hhigh), if_neg (not_lt.2 hlow)]
  have hvalue := zpow_eq_div (a := (10 : ℚ)) (by norm_num) q
  split
  · rename_i hq
    have hneg : (-q).toNat = 0 := by omega
    have hten : 0 < 10 ^ q.toNat := Nat.pow_pos (by decide)
    refine mul_eq _ _ h ?_ ?_
    · rw [Nat.shiftLeft_eq]
      calc 2 ^ 52 ≤ 1 * 2 ^ 53 * 1 := by decide
        _ ≤ c * 2 ^ 53 * 10 ^ q.toNat := Nat.mul_le_mul (Nat.mul_le_mul_right _ hc) hten
    · rw [hvalue, hneg, pow_zero, div_one] at hx
      have hshift : ((c <<< Format.binary64.mantissaBits : Nat) : ℚ) *
          2 ^ (-(Format.binary64.mantissaBits : Int)) = c := by
        rw [Nat.shiftLeft_eq, zpow_neg, zpow_natCast]
        push_cast
        rw [mul_assoc, mul_inv_cancel₀ (by positivity), mul_one]
      rw [hshift, zpow_zero, mul_one]
      exact_mod_cast hx
  · rename_i hq
    have hneg : q.toNat = 0 := by omega
    refine div_eq _ _ h ?_
    rw [hvalue, hneg, pow_zero, mul_one_div] at hx
    rw [zpow_zero, mul_one, mul_one]
    exact_mod_cast hx

theorem mul_of_isExactly {x y : Float} {n k : Nat} (hx : isExactly x n) (hy : isExactly y k)
    (h : Canonical m e) (hround : Rounds (n * k) m e) :
    x * y = .ofModel (.pack (.finite .positive m e h.pos)) := by
  obtain ⟨m₁, e₁, h₁, hx, hfull, hn⟩ := isExactly_iff.1 hx
  obtain ⟨m₂, e₂, h₂, hy, -, hk⟩ := isExactly_iff.1 hy
  have hproduct := mul_eq h₁ h₂ h (Nat.le_trans hfull (Nat.le_mul_of_pos_right _ h₂))
    (by rwa [hn, hk])
  have hfloat : x * y = .ofModel (.pack (.mul .binary64 x.toModel.unpack y.toModel.unpack)) := rfl
  rw [hfloat, hx, hy, hproduct]

theorem div_of_isExactly {x y : Float} {n k : Nat} (hx : isExactly x n) (hy : isExactly y k)
    (h : Canonical m e) (hround : Rounds (n / k) m e) :
    x / y = .ofModel (.pack (.finite .positive m e h.pos)) := by
  obtain ⟨m₁, e₁, h₁, hx, -, hn⟩ := isExactly_iff.1 hx
  obtain ⟨m₂, e₂, h₂, hy, -, hk⟩ := isExactly_iff.1 hy
  have hquotient := div_eq h₁ h₂ h (by rwa [hn, hk])
  have hfloat : x / y = .ofModel (.pack (.div .binary64 x.toModel.unpack y.toModel.unpack)) := rfl
  rw [hfloat, hx, hy, hquotient]

theorem ofScientific_up {k : Nat} (hc : 0 < c) (hk : k ≤ 2 ^ 11) (h : Canonical m e)
    (hx : Rounds (c * 10 ^ k) m e) :
    Float.ofScientific c false k = .ofModel (.pack (.finite .positive m e h.pos)) := by
  unfold Float.ofScientific
  split
  · rename_i hfast
    have hten := isExactly_powerOfTen ⟨k, Nat.lt_succ_of_le hfast.2⟩
    refine mul_of_isExactly (isExactly_toFloat hc hfast.1) hten h ?_
    exact_mod_cast hx
  · have hexact := ofScientific_exact (q := k) hc (by omega) (by exact_mod_cast hk) h
      (by rwa [zpow_natCast])
    exact congrArg (fun u => Float.ofModel (.pack u)) hexact

theorem ofScientific_down {k : Nat} (hc : 0 < c) (hk : k ≤ 2 ^ 11 + c.log2) (h : Canonical m e)
    (hx : Rounds (c / 10 ^ k) m e) :
    Float.ofScientific c true k = .ofModel (.pack (.finite .positive m e h.pos)) := by
  unfold Float.ofScientific
  split
  · rename_i hfast
    have hten := isExactly_powerOfTen ⟨k, Nat.lt_succ_of_le hfast.2⟩
    refine div_of_isExactly (isExactly_toFloat hc hfast.1) hten h ?_
    exact_mod_cast hx
  · have hexact := ofScientific_exact (q := -k) hc (by omega) (by omega) h
      (by rwa [zpow_neg, zpow_natCast, ← div_eq_mul_inv])
    have hneg : Int.negOfNat k = -k := Int.negOfNat_eq
    rw [← hneg] at hexact
    exact congrArg (fun u => Float.ofModel (.pack u)) hexact

theorem eight_zpow (q : Int) : (8 : ℚ) ^ q = 2 ^ (3 * q) := by
  rw [zpow_mul]
  norm_num

theorem Rounds.lower_bound {x : ℚ} (h : Canonical m e) (hx : Rounds x m e) :
    2 ^ (-1075 : Int) ≤ x := by
  have hm : (1 : ℚ) ≤ m := by exact_mod_cast h.pos
  calc (2 : ℚ) ^ (-1075 : Int) = 1 / 2 * 2 ^ (-1074 : Int) := by
        rw [show (-1075 : Int) = -1 + -1074 by rfl, zpow_add₀ (by norm_num)]
        norm_num
    _ ≤ 1 / 2 * 2 ^ e := by
      have hpow : (2 : ℚ) ^ (-1074 : Int) ≤ 2 ^ e := zpow_le_zpow_right₀ (by norm_num) h.least
      linarith
    _ ≤ (m - 1 / 2) * 2 ^ e := mul_le_mul_of_nonneg_right (by linarith) (by positivity)
    _ ≤ x := hx.low

theorem Rounds.upper_bound {x : ℚ} (h : Canonical m e) (hx : Rounds x m e) :
    x < 2 ^ (1024 : Int) := by
  have hexponent : 53 + e ≤ 1024 := by
    have hgreatest := h.greatest
    omega
  have hm : (m : ℚ) + 1 ≤ 2 ^ (53 : Int) := by exact_mod_cast h.lt
  calc x ≤ (m + 1 / 2) * 2 ^ e := hx.high
    _ < 2 ^ (53 : Int) * 2 ^ e := mul_lt_mul_of_pos_right (by linarith) (by positivity)
    _ = 2 ^ (53 + e) := (zpow_add₀ (by norm_num) _ _).symm
    _ ≤ 2 ^ (1024 : Int) := zpow_le_zpow_right₀ (by norm_num) hexponent

/-- A decimal that rounds to a number is not so small that it is cut off. The power of ten is
compared with a power of eight. -/
theorem Rounds.not_cut_off {q : Int} (h : Canonical m e) (hx : Rounds (c * 10 ^ q) m e) :
    -400 ≤ q + c.log2 := by
  by_contra hlt
  have hpow : (10 : ℚ) ^ q ≤ 2 ^ (3 * q) := by
    rw [← eight_zpow, ← neg_neg q, zpow_neg, zpow_neg 8]
    exact inv_anti₀ (by positivity) (zpow_le_zpow_left₀ (by omega) (by norm_num) (by norm_num))
  have hlog : (c : ℚ) ≤ 2 ^ (c.log2 + 1 : Int) := by
    exact_mod_cast Nat.le_of_lt (Nat.lt_log2_self (n := c))
  have hsmall : (c : ℚ) * 10 ^ q ≤ 2 ^ (c.log2 + 1 + 3 * q : Int) := by
    rw [zpow_add₀ (by norm_num)]
    exact mul_le_mul hlog hpow (by positivity) (by positivity)
  have hexp := (zpow_le_zpow_iff_right₀ (by norm_num)).1 (le_trans (hx.lower_bound h) hsmall)
  omega

theorem Rounds.not_too_large {q : Int} (h : Canonical m e) (hc : 0 < c)
    (hx : Rounds (c * 10 ^ q) m e) : q ≤ 400 := by
  by_contra hlt
  have hone : (1 : ℚ) ≤ c := by exact_mod_cast hc
  have hlarge : (2 : ℚ) ^ (3 * q) ≤ c * 10 ^ q := by
    calc (2 : ℚ) ^ (3 * q) = 8 ^ q := (eight_zpow q).symm
      _ ≤ 10 ^ q := zpow_le_zpow_left₀ (by omega) (by norm_num) (by norm_num)
      _ ≤ c * 10 ^ q := le_mul_of_one_le_left (by positivity) hone
  have hexp := (zpow_lt_zpow_iff_right₀ (by norm_num)).1 (lt_of_le_of_lt hlarge (hx.upper_bound h))
  omega

/-- **A decimal is read as the number that it rounds to.** -/
theorem ofDecimal_eq {q : Int} (h : Canonical m e) (hx : Rounds (c * 10 ^ q) m e) :
    ofDecimal c q = .ofModel (.pack (.finite .positive m e h.pos)) := by
  have hc : 0 < c := by
    rcases Nat.eq_zero_or_pos c with rfl | hc
    · have hlower := hx.lower_bound h
      rw [Nat.cast_zero, zero_mul] at hlower
      exact absurd hlower (not_le.2 (by positivity))
    · exact hc
  have hlow := hx.not_cut_off h
  have hhigh := hx.not_too_large h hc
  unfold ofDecimal
  rw [if_neg (by omega), if_neg (by omega)]
  rw [zpow_eq_div (by norm_num)] at hx
  by_cases hq : q < 0
  · have hneg : q.toNat = 0 := by omega
    have habs : (-q).toNat = q.natAbs := by omega
    rw [hneg, habs, pow_zero, mul_one_div] at hx
    rw [decide_eq_true hq]
    exact ofScientific_down hc (by omega) h hx
  · have hneg : (-q).toNat = 0 := by omega
    have habs : q.toNat = q.natAbs := by omega
    rw [hneg, habs, pow_zero, div_one] at hx
    rw [decide_eq_false hq]
    exact ofScientific_up hc (by omega) h hx

end ScriptFold.Number
