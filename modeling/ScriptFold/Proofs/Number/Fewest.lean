import ScriptFold.Proofs.Number.Shortest
import ScriptFold.Proofs.Number.Texts

/-!
No fewer digits round to a number.

The reals that round to a number form an interval, so a decimal in it with fewer digits than the one
that the search finds would put a power of ten into it, and this would be a hit on a grid that the
search has tested before.
-/

namespace ScriptFold.Number

open Shortest

/-! ## Hits -/

variable {m : Nat} {e p : Int} {tie : Tie} {i : Interval} {d : Nat}

/-- What is between reals that round to a number rounds to it. -/
theorem Rounds.between {x y z : ℚ} (hx : Rounds x m e) (hy : Rounds y m e) (hxz : x ≤ z)
    (hzy : z ≤ y) : Rounds z m e where
  low := hx.low.trans hxz
  high := hzy.trans hy.high
  odd hodd := ⟨(lt_of_lt_of_le (lt_of_le_of_ne hx.low (hx.odd hodd).1) hxz).ne,
    (lt_of_le_of_lt hzy (lt_of_le_of_ne hy.high (hy.odd hodd).2)).ne⟩
  dense hm he := (hx.dense hm he).trans hxz

namespace Shortest

/-- The number of whole steps below the number. -/
def floor (i : Interval) (p : Int) : Nat := i.value * tens (-p) / (i.denominator * tens p)

theorem floor_le (hden : 0 < i.denominator) :
    (floor i p * 10 ^ p : ℚ) ≤ i.value / i.denominator := by
  refine (decimal_le_iff hden).1 ?_
  rw [Nat.mul_assoc, Nat.mul_comm (tens p)]
  exact Nat.div_mul_le_self _ _

theorem lt_floor_add_one (hden : 0 < i.denominator) :
    (i.value / i.denominator : ℚ) < (floor i p + 1 : Nat) * 10 ^ p := by
  refine (lt_decimal_iff hden).1 ?_
  rw [Nat.mul_assoc, Nat.mul_comm (tens p)]
  exact (Nat.lt_mul_div_succ _ (Nat.mul_pos hden (tens_pos p))).trans_eq (Nat.mul_comm _ _)

/-- A grid has a hit if one of its decimals rounds to the number: then so does one of the two
neighbours of the number. -/
theorem hit_of_rounds (tie : Tie) (hm : 0 < m) (hd : 0 < d) (h : Rounds (d * 10 ^ p) m e) :
    ∃ d', hit (interval m e) tie p = some d' := by
  have hden := denominator_pos m e
  have hstep : (0 : ℚ) < 10 ^ p := by positivity
  have hself := Rounds.self m e
  have hbelow := floor_le (p := p) hden
  have habove := lt_floor_add_one (p := p) hden
  rw [value_eq] at hbelow habove
  refine Option.isSome_iff_exists.1 (List.find?_isSome.2 ?_)
  by_cases hle : d ≤ floor (interval m e) p
  · have hcast : (d : ℚ) * 10 ^ p ≤ floor (interval m e) p * 10 ^ p :=
      mul_le_mul_of_nonneg_right (by exact_mod_cast hle) hstep.le
    refine ⟨floor (interval m e) p, List.mem_cons_of_mem _ List.mem_cons_self, ?_⟩
    rw [Bool.and_eq_true, decide_eq_true_iff, holds_iff hm]
    exact ⟨by omega, h.between hself hcast hbelow⟩
  · have hcast : ((floor (interval m e) p + 1 : Nat) : ℚ) * 10 ^ p ≤ d * 10 ^ p :=
      mul_le_mul_of_nonneg_right (by exact_mod_cast Nat.lt_of_not_le hle) hstep.le
    refine ⟨floor (interval m e) p + 1,
      List.mem_cons_of_mem _ (List.mem_cons_of_mem _ List.mem_cons_self), ?_⟩
    rw [Bool.and_eq_true, decide_eq_true_iff, holds_iff hm]
    exact ⟨Nat.succ_pos _, hself.between h habove.le hcast⟩

theorem hit_le (h : hit i tie p = some d) : d ≤ floor i p + 1 := by
  have hmem := List.mem_of_find?_eq_some h
  have hnear : ∀ n : Nat, n = floor i p ∨ n = floor i p + 1 → n ≤ floor i p + 1 := by omega
  rcases List.mem_cons.1 hmem with rfl | hmem
  · refine hnear _ ?_
    split
    · exact .inl rfl
    · exact .inr rfl
    · split
      · exact .inl rfl
      · exact .inr rfl
  · refine hnear d ?_
    simpa [floor] using hmem

/-! ## The first grid -/

/-- The guess of a magnitude is at most one too small. -/
theorem le_guess : ((List.range 2098).all fun k =>
    let guess := ((k : Int) - 1074) * 30103 / 100000
    2 ^ (k - 1073) * tens (-(guess + 2)) ≤ tens (guess + 2) * 2 ^ (1073 - k)) = true := by
  decide +kernel

theorem le_zpow_guess {x : Int} (hlow : -1074 ≤ x) (hhigh : x < 1024) :
    (2 : ℚ) ^ (x + 1) ≤ 10 ^ (x * 30103 / 100000 + 2) := by
  obtain ⟨k, hk⟩ := Int.le.dest hlow
  have hx : x = k - 1074 := by omega
  have htable := List.all_eq_true.1 le_guess k (List.mem_range.2 (by omega))
  rw [decide_eq_true_iff] at htable
  have htens : (0 : ℚ) < tens (-((k - 1074 : Int) * 30103 / 100000 + 2)) := by
    exact_mod_cast tens_pos _
  have hup : ((k : Int) - 1074 + 1).toNat = k - 1073 := by omega
  have hdown : (-((k : Int) - 1074 + 1)).toNat = 1073 - k := by omega
  rw [hx, zpow_eq_tens, zpow_eq_div (by norm_num) ((k : Int) - 1074 + 1), hup, hdown,
    div_le_div_iff₀ (by positivity) htens]
  exact_mod_cast htable

theorem lt_magnitude {num den : Nat} {guess : Int} (hden : 0 < den)
    (h : (num / den : ℚ) < 10 ^ (guess + 2)) :
    (num / den : ℚ) < 10 ^ (magnitude num den guess + 1) := by
  unfold magnitude
  dsimp only
  split
  · rwa [Int.add_assoc]
  · rename_i hlt
    have hdecimal := (lt_decimal_iff (a := num) (d := 1) (p := guess + 1) hden).1
      (by rw [Nat.one_mul]; exact Nat.lt_of_not_le hlt)
    rwa [Nat.cast_one, one_mul] at hdecimal

theorem lt_zpow_start (h : Canonical m e) : (m * 2 ^ e : ℚ) < 10 ^ (start m e + 1) := by
  have hlog : m.log2 ≤ 52 := log2_le_of_lt h.lt
  have hleast := h.least
  have hgreatest := h.greatest
  have hpow : (m : ℚ) < 2 ^ (m.log2 + 1) := by exact_mod_cast Nat.lt_log2_self
  rw [← value_eq]
  refine lt_magnitude (denominator_pos m e) ?_
  calc ((interval m e).value / (interval m e).denominator : ℚ) = m * 2 ^ e := value_eq m e
    _ < 2 ^ (m.log2 + 1) * 2 ^ e := mul_lt_mul_of_pos_right hpow (by positivity)
    _ = 2 ^ (e + m.log2 + 1) := by
      rw [← zpow_natCast, ← zpow_add₀ (by norm_num)]
      push_cast
      ring_nf
    _ ≤ 10 ^ ((e + m.log2) * 30103 / 100000 + 2) := le_zpow_guess (by omega) (by omega)

/-- On the first grid there is a hit with one digit, or ten. -/
theorem hit_start_le (h : Canonical m e) (hhit : hit (interval m e) tie (start m e) = some d) :
    d ≤ 10 := by
  have hfloor := floor_le (p := start m e) (denominator_pos m e)
  rw [value_eq] at hfloor
  have hlt := lt_of_le_of_lt hfloor (lt_zpow_start h)
  rw [zpow_add_one₀ (by norm_num), mul_comm ((10 : ℚ) ^ start m e)] at hlt
  have hten : (floor (interval m e) (start m e) : ℚ) < 10 :=
    lt_of_mul_lt_mul_right hlt (by positivity)
  have hten' : floor (interval m e) (start m e) < 10 := by exact_mod_cast hten
  have hle := hit_le hhit
  omega

end Shortest

/-! ## Digits -/

theorem length_written_le_one : ∀ n ≤ 10, ∀ p, (Decimal.mk n p).written.length ≤ 1 := by
  have hdigits : ∀ n ≤ 10, ((Nat.toDigits 10 n).rdropWhile (· = '0')).length ≤ 1 := by decide
  exact fun n hn _ => hdigits n hn

theorem Decimal.pow_le_digits {d : Decimal} (hpos : 0 < d.digits) :
    10 ^ (d.written.length - 1) ≤ d.digits := by
  obtain ⟨n, hlength, -⟩ := d.digits_eq
  exact (Nat.pow_le_pow_right (by decide) (by omega)).trans (pow_le_of_toDigits hpos)

theorem exists_on_finer (c : Nat) {q : Int} (h : p ≤ q) :
    ∃ d : Nat, (d * 10 ^ p : ℚ) = c * 10 ^ q ∧ c ≤ d := by
  obtain ⟨n, rfl⟩ := Int.le.dest h
  refine ⟨10 ^ n * c, ?_, Nat.le_mul_of_pos_left c (Nat.pow_pos (by decide))⟩
  rw [zpow_add₀ (by norm_num), zpow_natCast]
  push_cast
  ring

/-- **No decimal with fewer digits rounds to the number.** -/
theorem length_written_le (h : Canonical m e) {c : Nat} {q : Int} (hc : 0 < c)
    (hx : Rounds (c * 10 ^ q) m e) :
    (shortest tie m e).written.length ≤ (Nat.toDigits 10 c).length := by
  have hfirst := firstHit_shortest tie h
  obtain ⟨hpos, hrounds⟩ := rounds_shortest tie h
  obtain ⟨r, hr⟩ : ∃ r, shortest tie m e = r := ⟨_, rfl⟩
  rw [hr] at hfirst hpos hrounds ⊢
  rcases hfirst.first with hstart | hnone
  · have hone := length_written_le_one r.digits
      (hit_start_le h (hstart ▸ hfirst.hit)) r.exponent
    exact hone.trans Nat.length_toDigits_pos
  -- One grid further up no decimal rounds to the number.
  have hcoarse : ∀ d : Nat, 0 < d → ¬ Rounds (d * 10 ^ (r.exponent + 1)) m e := by
    intro d hd hd'
    obtain ⟨d', hhit⟩ := hit_of_rounds tie h.pos hd hd'
    rw [hnone] at hhit
    cases hhit
  refine Nat.le_of_not_lt fun hlt => ?_
  rcases Int.lt_or_le r.exponent q with hq | hq
  · obtain ⟨d, hd, hle⟩ := exists_on_finer c (p := r.exponent + 1) hq
    exact hcoarse d (by omega) (by rwa [hd])
  · obtain ⟨j, hj⟩ : ∃ j, (Nat.toDigits 10 c).length = j + 1 :=
      ⟨_, (Nat.sub_add_cancel Nat.length_toDigits_pos).symm⟩
    have hbelow : c ≤ 10 ^ (j + 1) := hj ▸ (lt_pow_of_toDigits c).le
    have habove : 10 ^ (j + 1) ≤ r.digits :=
      (Nat.pow_le_pow_right (by decide) (by omega)).trans (Decimal.pow_le_digits hpos)
    have hpower : ((10 ^ j : Nat) * 10 ^ (r.exponent + 1) : ℚ) =
        (10 ^ (j + 1) : Nat) * 10 ^ r.exponent := by
      rw [zpow_add_one₀ (by norm_num)]
      push_cast
      ring
    refine hcoarse (10 ^ j) (Nat.pow_pos (by decide)) (hx.between hrounds ?_ ?_)
    · rw [hpower]
      exact mul_le_mul (by exact_mod_cast hbelow) (zpow_le_zpow_right₀ (by norm_num) hq)
        (by positivity) (by positivity)
    · rw [hpower]
      exact mul_le_mul_of_nonneg_right (by exact_mod_cast habove) (by positivity)

end ScriptFold.Number
