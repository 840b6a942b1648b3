import Mathlib
import ScriptFold.Number.Word

/-!
The bits of finite numbers.

A finite number is `m * 2 ^ e` with a sign, where `m` has 53 bits, or fewer at the least exponent.
The bits of a number hold exactly that: what is packed is unpacked again.
-/

namespace ScriptFold.Number

open Float.Model (Format UnpackedFloat)
open Float.Model.UnpackedFloat

/-- The mantissas and exponents of finite numbers. -/
structure Canonical (m : Nat) (e : Int) : Prop where
  pos : 0 < m
  lt : m < 2 ^ 53
  least : -1074 ≤ e
  greatest : e ≤ 971
  full : 2 ^ 52 ≤ m ∨ e = -1074

theorem toNat_implicit (f : BitVec 52) : (1#1 ++ f).toNat = 2 ^ 52 + f.toNat := by
  rw [BitVec.toNat_append, ← Nat.shiftLeft_add_eq_or_of_lt f.isLt, Nat.shiftLeft_eq]
  simp

theorem canonical_of_unpack {b : BitVec Format.binary64.numBits} {s : Sign} {m : Nat} {e : Int}
    {hm : 0 < m} (h : UnpackedFloat.unpack .binary64 b = .finite s m e hm) : Canonical m e := by
  have hx : (unpackExponent b).toNat < 2 ^ 11 := (unpackExponent b).isLt
  have hf : (unpackMantissa b).toNat < 2 ^ 52 := (unpackMantissa b).isLt
  have hbias : (Format.binary64.exponentBias : Int) = 1023 := rfl
  unfold UnpackedFloat.unpack at h
  dsimp only at h
  split at h
  · split at h <;> cases h
  rename_i hlast
  split at h
  · split at h
    · cases h
    · rename_i hzero hne
      cases h
      have hpos : 0 < (unpackMantissa b).toNat := hm
      rw [hzero, hbias]
      exact ⟨hpos, by omega, by decide, by decide, .inr (by decide)⟩
  · rename_i hzero
    cases h
    have hne : (unpackExponent b).toNat ≠ 0 := fun h0 => hzero (BitVec.eq_of_toNat_eq h0)
    have hne' : (unpackExponent b).toNat ≠ 2047 := fun h0 => hlast (BitVec.eq_of_toNat_eq h0)
    rw [toNat_implicit, hbias]
    refine ⟨by omega, by omega, ?_, ?_, .inl (by omega)⟩ <;> push_cast <;> omega

/-- Bits with an exponent that is neither the least nor the greatest one. -/
theorem unpack_packComponents {s : Sign} {x : BitVec 11} {f : BitVec 52} (h₀ : x.toNat ≠ 0)
    (h₁ : x.toNat ≠ 2047) :
    UnpackedFloat.unpack .binary64 (packComponents .binary64 s x f) =
      .finite s (2 ^ 52 + f.toNat) (x.toNat - 1075) (by omega) := by
  have hlast : x ≠ -1#11 := by
    rintro rfl
    exact h₁ rfl
  have hzero : x ≠ 0#11 := by
    rintro rfl
    exact h₀ rfl
  unfold UnpackedFloat.unpack
  simp only [unpackMantissa_packComponents, unpackExponent_packComponents,
    unpackSign_packComponents, Sign.ofBitVec_toBitVec, hlast, hzero, if_false, toNat_implicit]
  rfl

/-- Bits with the least exponent. -/
theorem unpack_packComponents_zero {s : Sign} {f : BitVec 52} (h : 0 < f.toNat) :
    UnpackedFloat.unpack .binary64 (packComponents .binary64 s 0#11 f) =
      .finite s f.toNat (-1074) h := by
  have hlast : (0#11 : BitVec 11) ≠ -1#11 := by decide
  have hne : f ≠ 0#52 := by
    rintro rfl
    exact absurd h (by decide)
  unfold UnpackedFloat.unpack
  simp only [unpackMantissa_packComponents, unpackExponent_packComponents,
    unpackSign_packComponents, Sign.ofBitVec_toBitVec, hlast, hne, if_false, if_true]
  rfl

theorem pack_full {m : Nat} {e : Int} (s : Sign) (h : Canonical m e) (hm : 2 ^ 52 ≤ m) :
    UnpackedFloat.pack .binary64 (.finite s m e h.pos) =
      packComponents .binary64 s (BitVec.ofNat 11 (e + 1075).toNat) (BitVec.ofNat 52 m) := by
  have hleast := h.least
  have hgreatest := h.greatest
  have hlog : m.log2 + 1 = Format.binary64.mantissaBits := by
    rw [(Nat.log2_eq_iff (by omega)).2 ⟨hm, h.lt⟩]
    rfl
  have hbiased : (e + (Format.binary64.exponentBias : Int) +
      (Format.binary64.mantissaBitsWithoutImplicit : Int)).toNat = (e + 1075).toNat := by
    rw [show (Format.binary64.exponentBias : Int) = 1023 from rfl]
    push_cast
    omega
  unfold UnpackedFloat.pack
  simp only [hbiased]
  rw [if_neg (by omega), if_pos hlog]

theorem pack_partial {m : Nat} (s : Sign) (hm : 0 < m) (hlt : m < 2 ^ 52) :
    UnpackedFloat.pack .binary64 (.finite s m (-1074) hm) =
      packComponents .binary64 s 0#11 (BitVec.ofNat 52 m) := by
  have hlog : ¬m.log2 + 1 = Format.binary64.mantissaBits := by
    have h52 : m.log2 < 52 := (Nat.log2_lt (by omega)).2 hlt
    rw [show Format.binary64.mantissaBits = 53 from rfl]
    omega
  unfold UnpackedFloat.pack
  simp only
  rw [if_neg (by decide), if_neg hlog]

theorem unpack_pack {m : Nat} {e : Int} (s : Sign) (h : Canonical m e) :
    UnpackedFloat.unpack .binary64 (UnpackedFloat.pack .binary64 (.finite s m e h.pos)) =
      .finite s m e h.pos := by
  have hlt := h.lt
  have hleast := h.least
  have hgreatest := h.greatest
  by_cases hm : 2 ^ 52 ≤ m
  · have hexponent : (BitVec.ofNat 11 (e + 1075).toNat).toNat = (e + 1075).toNat := by
      rw [BitVec.toNat_ofNat, Nat.mod_eq_of_lt (by omega)]
    have hmantissa : 2 ^ 52 + (BitVec.ofNat 52 m).toNat = m := by
      rw [BitVec.toNat_ofNat]
      omega
    rw [pack_full s h hm, unpack_packComponents (by omega) (by omega)]
    simp only [hexponent, hmantissa, UnpackedFloat.finite.injEq, true_and]
    omega
  · obtain rfl : e = -1074 := h.full.resolve_left hm
    have hmantissa : (BitVec.ofNat 52 m).toNat = m := by
      rw [BitVec.toNat_ofNat, Nat.mod_eq_of_lt (by omega)]
    have hpos : 0 < (BitVec.ofNat 52 m).toNat := by
      rw [hmantissa]
      exact h.pos
    rw [pack_partial s h.pos (by omega), unpack_packComponents_zero hpos]
    simp only [hmantissa]

theorem eq_of_unpack {x : Float} {u : UnpackedFloat} (h : x.toModel.unpack = u) :
    x = .ofModel (.pack u) := by
  rw [← h]
  exact (Float.ofBits_toBits x).symm

theorem unpack_ofModel {m : Nat} {e : Int} (s : Sign) (h : Canonical m e) :
    (Float.Model.pack (.finite s m e h.pos)).unpack = .finite s m e h.pos := unpack_pack s h

end ScriptFold.Number
