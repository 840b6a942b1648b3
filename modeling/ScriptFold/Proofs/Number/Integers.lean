import ScriptFold.Proofs.Number.Comparison
import ScriptFold.Proofs.Number.ReadBack

/-!
Integers as numbers.

The number nearest to an integer is zero only if the integer is, and it is always a number: rounding
keeps all bits of a mantissa that has them, and what is too large becomes an infinity.
-/

namespace ScriptFold.Number

open Float.Model (Format UnpackedFloat)
open Float.Model.UnpackedFloat

variable {n m : Nat} {e f : Int} {s : Sign}

/-! ## Rounding keeps all bits -/

theorem roundedMantissa_bounds (em : ExtendedMantissa) :
    em.mantissa ≤ em.roundedMantissa ∧ em.roundedMantissa ≤ em.mantissa + 1 := by
  unfold ExtendedMantissa.roundedMantissa Accuracy.roundToNearestEven
  split
  · exact ⟨Nat.le_refl _, Nat.le_succ _⟩
  · exact ⟨Nat.le_refl _, Nat.le_succ _⟩
  · omega
  · exact ⟨Nat.le_succ _, Nat.le_refl _⟩

/-- What a natural number with all bits of a mantissa is rounded to. -/
theorem roundWithAccuracy_full (s : Sign) (hn : 2 ^ 52 ≤ n) (hf : -1074 ≤ f) :
    ∃ m e, ∃ hm : 0 < m, roundWithAccuracy .binary64 s n f .exact = .finite s m e hm ∧
      2 ^ 52 ≤ m ∧ m < 2 ^ 53 ∧ -1074 ≤ e := by
  have hne : n ≠ 0 := by omega
  obtain ⟨k, hk⟩ := Nat.le.dest ((Nat.le_log2 hne).2 hn)
  have hlow : 2 ^ 52 * 2 ^ k ≤ n := by
    rw [← Nat.pow_add, hk]
    exact Nat.log2_self_le hne
  have hhigh : n < 2 ^ 53 * 2 ^ k := by
    rw [← Nat.pow_add, show 53 + k = n.log2 + 1 by omega]
    exact Nat.lt_log2_self
  have hfirst := shiftToTargetExponent_exact (m := n) (e := f) (j := k) (by omega)
  obtain ⟨hge, hle⟩ := roundedMantissa_bounds (extended n (2 ^ k))
  have hwhole : 2 ^ 52 ≤ (extended n (2 ^ k)).mantissa ∧ (extended n (2 ^ k)).mantissa < 2 ^ 53 :=
    ⟨(Nat.le_div_iff_mul_le (Nat.two_pow_pos k)).2 hlow,
      (Nat.div_lt_iff_lt_mul (Nat.two_pow_pos k)).2 hhigh⟩
  generalize hr : (extended n (2 ^ k)).roundedMantissa = r at hge hle
  rcases Nat.lt_or_ge r (2 ^ 53) with hlt | hcarry
  · have hlog : r.log2 = 52 := (Nat.log2_eq_iff (by omega)).2 ⟨by omega, hlt⟩
    have hsecond := shiftToTargetExponent_exact (m := r) (e := f + k) (j := 0) (by omega)
    have hmantissa : (extended r (2 ^ 0)).mantissa = r := Nat.div_one r
    refine ⟨r, f + k + (0 : Nat), by omega, ?_, by omega, hlt, by omega⟩
    unfold roundWithAccuracy
    simp only [hfirst, hr, hsecond, hmantissa, show r ≠ 0 by omega, dite_false]
  · obtain rfl : r = 2 ^ 53 := by omega
    have hsecond := shiftToTargetExponent_carry (e := f + k + 1) (by omega)
    rw [Int.add_sub_cancel] at hsecond
    have hmantissa : (extended (2 ^ 53) 2).mantissa = 2 ^ 52 := rfl
    refine ⟨2 ^ 52, f + k + 1, by decide, ?_, by decide, by decide, by omega⟩
    unfold roundWithAccuracy
    simp only [hfirst, hr, hsecond, hmantissa]
    rfl

/-! ## Numbers that are not zero -/

/-- A number of this sign that is not zero. -/
inductive Away (s : Sign) : UnpackedFloat → Prop
  | infinity : Away s (.infinity s)
  | finite (m : Nat) (e : Int) (hm : 0 < m) : Away s (.finite s m e hm)

/-- A mantissa with all bits stays one in the bits of a number, or the number is an infinity. -/
theorem away_unpack_pack (hm : 2 ^ 52 ≤ m) (hlt : m < 2 ^ 53) (he : -1074 ≤ e) :
    Away s (.unpack .binary64 (UnpackedFloat.pack .binary64 (.finite s m e (by omega)))) := by
  by_cases hgreatest : e ≤ 971
  · rw [unpack_pack s ⟨by omega, hlt, he, hgreatest, .inl hm⟩]
    exact .finite m e _
  · have hpack : UnpackedFloat.pack .binary64 (.finite s m e (by omega)) =
        packedInfinity .binary64 s := by
      have hbias : (Format.binary64.exponentBias : Int) = 1023 := rfl
      unfold UnpackedFloat.pack
      simp only [hbias]
      exact if_pos (by push_cast; omega)
    rw [hpack]
    cases s <;> exact .infinity

/-- The exact computation of a natural number gives all bits of a mantissa. -/
theorem ofScientific_zero (hn : 0 < n) : ∃ m e, ∃ hm : 0 < m,
    UnpackedFloat.ofScientific .binary64 n 0 = .finite .positive m e hm ∧
      2 ^ 52 ≤ m ∧ m < 2 ^ 53 ∧ -1074 ≤ e := by
  have hfull : 2 ^ 52 ≤ n * 2 ^ 53 * 10 ^ 0 := by omega
  obtain ⟨m, e, hm, hround, hbounds⟩ :=
    roundWithAccuracy_full .positive hfull (f := -53) (by decide)
  refine ⟨m, e, hm, ?_, hbounds⟩
  unfold UnpackedFloat.ofScientific
  have hleast : ¬(0 : Int) < -(2 ^ Format.binary64.exponentBits + n.log2) := by
    have hbits : (2 ^ Format.binary64.exponentBits : Int) = 2048 := rfl
    omega
  rw [dif_neg (Nat.ne_of_gt hn), if_neg (by decide), if_neg hleast, if_pos le_rfl]
  rw [← hround, ← Nat.shiftLeft_eq]
  rfl

theorem away_ofNat (hn : 0 < n) : Away .positive (Float.ofNat n).toModel.unpack := by
  rcases Nat.lt_or_ge n (2 ^ 53) with hlt | hge
  · obtain ⟨m, e, h, -, hvalue, -⟩ := normalize_eq hn hlt
    have hself := Rounds.self m e
    rw [hvalue, ← mul_one (n : ℚ), ← zpow_zero (10 : ℚ)] at hself
    rw [← ofDecimal_zero, ofDecimal_eq h hself, unpack_ofModel .positive h]
    exact .finite m e _
  · obtain ⟨m, e, hm, hexact, hfull, hlt, he⟩ := ofScientific_zero hn
    have hfloat : Float.ofNat n = .ofModel (.pack (.finite .positive m e hm)) := by
      rw [← hexact]
      exact dif_neg (fun h => by omega)
    rw [hfloat]
    exact away_unpack_pack hfull hlt he

theorem away_neg {x : Float} (h : Away s x.toModel.unpack) : Away (-s) (-x).toModel.unpack := by
  rw [neg_eq]
  generalize hu : x.toModel.unpack = u at h
  cases h with
  | infinity => cases s <;> exact .infinity
  | finite m e hm =>
    show Away (-s) (Float.Model.pack (.finite (-s) m e hm)).unpack
    rw [unpack_ofModel (-s) (canonical_of_unpack hu)]
    exact .finite m e hm

theorem Away.compare_zero {u : UnpackedFloat} (h : Away s u) :
    u.compare (.zero .positive) ≠ some .eq := by
  cases h <;> cases s <;> exact fun heq => by cases heq

theorem Away.isNaN {u : UnpackedFloat} (h : Away s u) : u.isNaN = false := by
  cases h <;> rfl

/-- **The number nearest to an integer is zero only if the integer is, and it is always a number.** -/
theorem ofInt_isZero_or_isNaN (n : Int) :
    (Float.ofInt n == 0.0 || (Float.ofInt n).isNaN) = decide (n = 0) := by
  have haway {s : Sign} (hn : n ≠ 0) (h : Away s (Float.ofInt n).toModel.unpack) :
      (Float.ofInt n == 0.0 || (Float.ofInt n).isNaN) = decide (n = 0) := by
    have hzero : (Float.ofInt n == 0.0) = false :=
      Bool.eq_false_iff.2 fun heq => h.compare_zero (beq_iff.1 heq)
    have hnan : (Float.ofInt n).isNaN = false := h.isNaN
    rw [hzero, hnan, decide_eq_false hn, Bool.or_self]
  match n with
  | .ofNat 0 => decide +kernel
  | .ofNat (k + 1) => exact haway nofun (away_ofNat k.succ_pos)
  | .negSucc k => exact haway nofun (away_neg (away_ofNat k.succ_pos))

end ScriptFold.Number
