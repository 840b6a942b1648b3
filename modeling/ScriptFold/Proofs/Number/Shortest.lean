import ScriptFold.Number.Shortest
import ScriptFold.Proofs.Number.Rounding

/-!
The shortest digits of a number round to it.

Every hit of the search lies in the interval of the number. A hit there is: on the grid with
seventeen digits the nearest decimal is closer to the number than half the distance to the next
number.
-/

namespace ScriptFold.Number.Shortest

/-! ## Fractions and decimals -/

theorem tens_pos (p : Int) : 0 < tens p := Nat.pow_pos (by decide)

theorem zpow_eq_tens (p : Int) : (10 : ℚ) ^ p = tens p / tens (-p) := by
  rw [zpow_eq_div (by norm_num)]
  unfold tens
  rw [Nat.pow_eq, Nat.pow_eq]
  push_cast
  rfl

variable {a den d : Nat} {p : Int} (hden : 0 < den)
include hden

theorem le_decimal_iff : a * tens (-p) ≤ d * tens p * den ↔ (a / den : ℚ) ≤ d * 10 ^ p := by
  have hden' : (0 : ℚ) < den := by exact_mod_cast hden
  have htens : (0 : ℚ) < tens (-p) := by exact_mod_cast tens_pos (-p)
  rw [zpow_eq_tens, mul_div_assoc', div_le_div_iff₀ hden' htens]
  exact_mod_cast Iff.rfl

theorem decimal_le_iff : d * tens p * den ≤ a * tens (-p) ↔ (d * 10 ^ p : ℚ) ≤ a / den := by
  have hden' : (0 : ℚ) < den := by exact_mod_cast hden
  have htens : (0 : ℚ) < tens (-p) := by exact_mod_cast tens_pos (-p)
  rw [zpow_eq_tens, mul_div_assoc', div_le_div_iff₀ htens hden']
  exact_mod_cast Iff.rfl

theorem lt_decimal_iff : a * tens (-p) < d * tens p * den ↔ (a / den : ℚ) < d * 10 ^ p := by
  rw [← not_le, decimal_le_iff hden, not_le]

theorem decimal_lt_iff : d * tens p * den < a * tens (-p) ↔ (d * 10 ^ p : ℚ) < a / den := by
  rw [← not_le, le_decimal_iff hden, not_le]

omit hden

/-! ## Intervals -/

theorem denominator_pos (m : Nat) (e : Int) : 0 < (interval m e).denominator :=
  Nat.pow_pos (by decide)

/-- What an interval says of quarters of the last bit. -/
theorem quarters_eq (n : Nat) (m : Nat) (e : Int) :
    ((n * Nat.pow 2 (e - 2).toNat : Nat) / (interval m e).denominator : ℚ) = n / 4 * 2 ^ e := by
  have hsplit := zpow_eq_div (a := (2 : ℚ)) (by norm_num) (e - 2)
  rw [neg_sub] at hsplit
  have hfour : (2 : ℚ) ^ e = 4 * 2 ^ (e - 2) := by
    rw [zpow_sub₀ (by norm_num)]
    norm_num
    ring
  rw [hfour, hsplit]
  unfold interval
  rw [Nat.pow_eq, Nat.pow_eq]
  push_cast
  ring

theorem value_eq (m : Nat) (e : Int) :
    ((interval m e).value / (interval m e).denominator : ℚ) = m * 2 ^ e := by
  have hquarters := quarters_eq (4 * m) m e
  push_cast at hquarters
  unfold interval at *
  push_cast
  rw [hquarters]
  ring

theorem high_eq (m : Nat) (e : Int) :
    ((interval m e).high / (interval m e).denominator : ℚ) = (m + 1 / 2) * 2 ^ e := by
  have hquarters := quarters_eq (4 * m + 2) m e
  push_cast at hquarters
  unfold interval at *
  push_cast
  rw [hquarters]
  ring

/-- The low end is half of the last bit below the number, or a quarter of it. -/
theorem low_eq {m : Nat} {e : Int} (hm : 0 < m) :
    ((interval m e).low / (interval m e).denominator : ℚ) =
      (m - (if m = 2 ^ 52 ∧ -1074 < e then 1 / 4 else 1 / 2)) * 2 ^ e := by
  have hlow : (interval m e).low =
      (4 * m - if m = 2 ^ 52 ∧ -1074 < e then 1 else 2) * Nat.pow 2 (e - 2).toNat := rfl
  rw [hlow, quarters_eq]
  split
  · rw [Nat.cast_sub (by omega)]
    push_cast
    ring
  · rw [Nat.cast_sub (by omega)]
    push_cast
    ring

/-- The decimals in the interval of a number are those that round to it. -/
theorem holds_iff {m d : Nat} {e p : Int} (hm : 0 < m) :
    (interval m e).holds d p = true ↔ Rounds (d * 10 ^ p) m e := by
  have hden := denominator_pos m e
  have hpos : (0 : ℚ) < 2 ^ e := by positivity
  have hlow := low_eq (e := e) hm
  have hhigh := high_eq m e
  have hclosed : (interval m e).closed = decide (m % 2 = 0) := rfl
  unfold Interval.holds
  rw [hclosed]
  by_cases heven : m % 2 = 0
  · rw [decide_eq_true heven, if_pos rfl, Bool.and_eq_true, decide_eq_true_iff,
      decide_eq_true_iff, le_decimal_iff hden, decimal_le_iff hden, hlow, hhigh]
    constructor
    · rintro ⟨hle, hle'⟩
      refine ⟨?_, hle', fun hodd => by omega, fun hpower he => ?_⟩
      · split at hle <;> nlinarith
      · rwa [if_pos ⟨hpower, he⟩] at hle
    · intro h
      refine ⟨?_, h.high⟩
      split
      · rename_i hpower
        exact h.dense hpower.1 hpower.2
      · exact h.low
  · have hpower : ¬(m = 2 ^ 52 ∧ -1074 < e) := by
      rintro ⟨rfl, -⟩
      exact heven rfl
    rw [decide_eq_false heven, if_neg (by decide), Bool.and_eq_true, decide_eq_true_iff,
      decide_eq_true_iff, lt_decimal_iff hden, decimal_lt_iff hden, hlow, hhigh, if_neg hpower]
    constructor
    · rintro ⟨hlt, hlt'⟩
      exact ⟨hlt.le, hlt'.le, fun _ => ⟨hlt.ne, hlt'.ne⟩, fun hm he => absurd ⟨hm, he⟩ hpower⟩
    · intro h
      obtain ⟨hne, hne'⟩ := h.odd (by omega)
      exact ⟨lt_of_le_of_ne h.low hne, lt_of_le_of_ne h.high hne'⟩

theorem holds_of_lt {i : Interval} (hden : 0 < i.denominator)
    (hlow : (i.low / i.denominator : ℚ) < d * 10 ^ p)
    (hhigh : (d * 10 ^ p : ℚ) < i.high / i.denominator) : i.holds d p = true := by
  have hlow' := (lt_decimal_iff hden).2 hlow
  have hhigh' := (decimal_lt_iff hden).2 hhigh
  unfold Interval.holds
  split
  · rw [Bool.and_eq_true, decide_eq_true_iff, decide_eq_true_iff]
    exact ⟨hlow'.le, hhigh'.le⟩
  · rw [Bool.and_eq_true, decide_eq_true_iff, decide_eq_true_iff]
    exact ⟨hlow', hhigh'⟩

/-! ## The search -/

theorem hit_spec {i : Interval} {tie : Tie} (h : hit i tie p = some d) :
    0 < d ∧ i.holds d p = true := by
  have hfound := List.find?_some h
  rwa [Bool.and_eq_true, decide_eq_true_iff] at hfound

/-- A decimal is a hit on its grid, which is the first one or comes after one without a hit. -/
structure FirstHit (i : Interval) (tie : Tie) (p : Int) (d : Decimal) : Prop where
  hit : hit i tie d.exponent = some d.digits
  le : d.exponent ≤ p
  first : d.exponent = p ∨ Shortest.hit i tie (d.exponent + 1) = none

/-- The search ends with a first hit if the last grid has one. -/
theorem search_spec {i : Interval} {tie : Tie} {steps : Nat} {p : Int}
    (hlast : ∃ d, hit i tie (p - steps) = some d) :
    FirstHit i tie p (search i tie (steps + 1) p) := by
  induction steps generalizing p with
  | zero =>
    obtain ⟨d, hd⟩ := hlast
    rw [Nat.cast_zero, sub_zero] at hd
    rw [search, hd]
    exact ⟨hd, le_rfl, .inl rfl⟩
  | succ steps ih =>
    rw [search]
    split
    · rename_i d hd
      exact ⟨hd, le_rfl, .inl rfl⟩
    · rename_i hnone
      have hstep : p - 1 - (steps : Int) = p - (steps + 1 : Nat) := by omega
      have h := ih (p := p - 1) (by rwa [hstep])
      have hle := h.le
      refine ⟨h.hit, by omega, .inr ?_⟩
      rcases h.first with hfirst | hfirst
      · rwa [hfirst, Int.sub_add_cancel]
      · exact hfirst

/-- A decimal is within half a step of the number if it is so in whole steps. -/
theorem near_of_steps {i : Interval} (hden : 0 < i.denominator)
    (hlow : 2 * (i.value * tens (-p)) ≤ 2 * (i.denominator * tens p * d) + i.denominator * tens p)
    (hhigh : 2 * (i.denominator * tens p * d) ≤ 2 * (i.value * tens (-p)) + i.denominator * tens p) :
    |(d * 10 ^ p : ℚ) - i.value / i.denominator| ≤ 10 ^ p / 2 := by
  have hden' : (0 : ℚ) < i.denominator := by exact_mod_cast hden
  have htens : (0 : ℚ) < tens (-p) := by exact_mod_cast tens_pos (-p)
  have hlow' : (2 * (i.value * tens (-p)) : ℚ) ≤
      2 * (i.denominator * tens p * d) + i.denominator * tens p := by exact_mod_cast hlow
  have hhigh' : (2 * (i.denominator * tens p * d) : ℚ) ≤
      2 * (i.value * tens (-p)) + i.denominator * tens p := by exact_mod_cast hhigh
  have hscale : (d * 10 ^ p : ℚ) - i.value / i.denominator =
      (i.denominator * tens p * d - i.value * tens (-p)) / (i.denominator * tens (-p)) := by
    rw [zpow_eq_tens]
    field_simp
  have hhalf : (10 ^ p / 2 : ℚ) =
      (i.denominator * tens p / 2) / (i.denominator * tens (-p)) := by
    rw [zpow_eq_tens]
    field_simp
  have hpos : (0 : ℚ) < i.denominator * tens (-p) := mul_pos hden' htens
  rw [hscale, hhalf, abs_div, abs_of_pos hpos, div_le_div_iff_of_pos_right hpos, abs_le]
  constructor <;> linarith

/-- A grid has a hit if the decimals nearest to the number are hits. -/
theorem hit_of_nearest {i : Interval} (tie : Tie) (hden : 0 < i.denominator)
    (h : ∀ d : Nat, |(d * 10 ^ p : ℚ) - i.value / i.denominator| ≤ 10 ^ p / 2 →
      0 < d ∧ i.holds d p = true) :
    ∃ d, hit i tie p = some d := by
  have hmod := Nat.div_add_mod (i.value * tens (-p)) (i.denominator * tens p)
  have hlt := Nat.mod_lt (i.value * tens (-p)) (Nat.mul_pos hden (tens_pos p))
  have hnear (d : Nat) := fun hlow hhigh => h d (near_of_steps hden hlow hhigh)
  unfold hit
  dsimp only
  generalize i.value * tens (-p) = num at *
  generalize i.denominator * tens p = step at *
  have hnext : step * (num / step + 1) = step * (num / step) + step := Nat.mul_succ _ _
  have hdown (hle : 2 * (num % step) ≤ step) := hnear (num / step) (by omega) (by omega)
  have hup (hle : step ≤ 2 * (num % step)) := hnear (num / step + 1) (by omega) (by omega)
  have hfirst {d : Nat} {ds : List Nat} (hd : 0 < d ∧ i.holds d p = true) :
      ∃ d', (d :: ds).find? (fun d => 0 < d && i.holds d p) = some d' := by
    refine ⟨d, List.find?_cons_of_pos ?_⟩
    rwa [Bool.and_eq_true, decide_eq_true_iff]
  refine hfirst ?_
  split
  · rename_i hcompare
    exact hdown (Nat.le_of_lt (Nat.compare_eq_lt.1 hcompare))
  · rename_i hcompare
    exact hup (Nat.le_of_lt (Nat.compare_eq_gt.1 hcompare))
  · rename_i hcompare
    have heq := Nat.compare_eq_eq.1 hcompare
    split
    · exact hdown (Nat.le_of_eq heq)
    · exact hup (Nat.le_of_eq heq.symm)

/-! ## The last grid -/

/-- The guess of a magnitude is right for every power of two that a number can have. -/
theorem guess_le : ((List.range 2098).all fun k =>
    let guess := ((k : Int) - 1074) * 30103 / 100000
    tens guess * 2 ^ (1074 - k) ≤ 2 ^ (k - 1074) * tens (-guess)) = true := by
  decide +kernel

theorem zpow_guess_le {x : Int} (hlow : -1074 ≤ x) (hhigh : x < 1024) :
    (10 : ℚ) ^ (x * 30103 / 100000) ≤ 2 ^ x := by
  obtain ⟨k, hk⟩ := Int.le.dest hlow
  have hx : x = k - 1074 := by omega
  have htable := List.all_eq_true.1 guess_le k (List.mem_range.2 (by omega))
  rw [decide_eq_true_iff] at htable
  have htens : (0 : ℚ) < tens (-((k - 1074 : Int) * 30103 / 100000)) := by
    exact_mod_cast tens_pos _
  have hup : ((k : Int) - 1074).toNat = k - 1074 := by omega
  have hdown : (-((k : Int) - 1074)).toNat = 1074 - k := by omega
  rw [hx, zpow_eq_tens, zpow_eq_div (by norm_num) ((k : Int) - 1074), hup, hdown,
    div_le_div_iff₀ htens (by positivity)]
  exact_mod_cast htable

theorem magnitude_le {num den : Nat} {guess : Int} (hden : 0 < den)
    (h : (10 : ℚ) ^ guess ≤ num / den) : (10 : ℚ) ^ magnitude num den guess ≤ num / den := by
  unfold magnitude
  dsimp only
  split
  · rename_i hle
    have hdecimal := (decimal_le_iff (d := 1) (p := guess + 1) hden).1 (by rwa [Nat.one_mul])
    rwa [Nat.cast_one, one_mul] at hdecimal
  · exact h

theorem zpow_magnitude_le {m : Nat} {e : Int} (h : Canonical m e) :
    (10 : ℚ) ^ magnitude (interval m e).value (interval m e).denominator
      ((e + m.log2) * 30103 / 100000) ≤ m * 2 ^ e := by
  have hlog : m.log2 ≤ 52 := log2_le_of_lt h.lt
  have hleast := h.least
  have hgreatest := h.greatest
  have hpow : (2 : ℚ) ^ m.log2 ≤ m := by exact_mod_cast Nat.log2_self_le (Nat.ne_of_gt h.pos)
  rw [← value_eq]
  refine magnitude_le (denominator_pos m e) ?_
  calc (10 : ℚ) ^ ((e + m.log2) * 30103 / 100000) ≤ 2 ^ (e + m.log2) :=
        zpow_guess_le (by omega) (by omega)
    _ = 2 ^ m.log2 * 2 ^ e := by rw [zpow_add₀ (by norm_num), zpow_natCast, mul_comm]
    _ ≤ m * 2 ^ e := mul_le_mul_of_nonneg_right hpow (by positivity)
    _ = (interval m e).value / (interval m e).denominator := (value_eq m e).symm

/-- Seventeen digits suffice: a step there is smaller than the distance to the next number. -/
theorem hit_last {m : Nat} {e q : Int} (tie : Tie) (h : Canonical m e)
    (hq : (10 : ℚ) ^ q ≤ m * 2 ^ e) : ∃ d, hit (interval m e) tie (q - (16 : Nat)) = some d := by
  refine hit_of_nearest tie (denominator_pos m e) fun d hd => ?_
  rw [value_eq, abs_le] at hd
  obtain ⟨hbelow, habove⟩ := hd
  have hdigits : (10 : ℚ) ^ q = 10 ^ 16 * 10 ^ (q - (16 : Nat)) := by
    rw [zpow_sub₀ (by norm_num), zpow_natCast]
    field_simp
  rw [hdigits] at hq
  generalize q - ((16 : Nat) : Int) = p at *
  have hstep : (0 : ℚ) < 10 ^ p := by positivity
  have hlast : (0 : ℚ) < 2 ^ e := by positivity
  have hm : (m : ℚ) * 2 ^ e ≤ (2 ^ 53 - 1) * 2 ^ e := by
    have hlt : (m + 1 : ℚ) ≤ 2 ^ 53 := by exact_mod_cast h.lt
    exact mul_le_mul_of_nonneg_right (by linarith) hlast.le
  constructor
  · have hpos : (0 : ℚ) < d * 10 ^ p := by linarith
    exact_mod_cast pos_of_mul_pos_left hpos hstep.le
  refine holds_of_lt (denominator_pos m e) ?_ ?_
  · rw [low_eq h.pos]
    split
    · rename_i hpower
      rw [hpower.1] at hq hbelow ⊢
      push_cast at hq hbelow ⊢
      linarith
    · linarith
  · rw [high_eq]
    linarith

end ScriptFold.Number.Shortest

namespace ScriptFold.Number

open Shortest

/-- The first grid of the search: its step is the greatest power of ten that is not beyond the
number. -/
def start (m : Nat) (e : Int) : Int :=
  magnitude (interval m e).value (interval m e).denominator ((e + m.log2) * 30103 / 100000)

theorem firstHit_shortest {m : Nat} {e : Int} (tie : Tie) (h : Canonical m e) :
    FirstHit (interval m e) tie (start m e) (shortest tie m e) :=
  search_spec (hit_last tie h (zpow_magnitude_le h))

/-- **The shortest digits of a number round to it.** -/
theorem rounds_shortest {m : Nat} {e : Int} (tie : Tie) (h : Canonical m e) :
    0 < (shortest tie m e).digits ∧
      Rounds ((shortest tie m e).digits * 10 ^ (shortest tie m e).exponent) m e := by
  obtain ⟨hpos, hholds⟩ := hit_spec (firstHit_shortest tie h).hit
  exact ⟨hpos, (holds_iff h.pos).1 hholds⟩

end ScriptFold.Number
