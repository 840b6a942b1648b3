import ScriptFold.Proofs.Number.Digits
import ScriptFold.Proofs.Number.Scientific
import ScriptFold.Proofs.Text.Trailing

/-!
Texts of decimals.

A text lays out the digits of a decimal, with zeros, a point or a power of ten. Whatever the
layout, the text denotes the same decimal, and what is read from it is the number nearest to that.
-/

namespace ScriptFold.Number

/-! ## Reading -/

/-- The decimal that a text without a sign denotes, before it is rounded to a number. -/
def decimal? (cs : List Char) : Option Decimal :=
  let (int, rest) := cs.span Char.isDigit
  let (frac, rest) :=
    match rest with
    | '.' :: rest => rest.span Char.isDigit
    | _ => ([], rest)
  if int = [] ∧ frac = [] then none
  else (readExponent rest).map fun e => ⟨ofDigits (int ++ frac), e - frac.length⟩

/-- What is read from a text is the nearest number to the decimal that it denotes. -/
theorem readUnsigned_eq (cs : List Char) :
    readUnsigned cs = (decimal? cs).map fun d => ofDecimal d.digits d.exponent := by
  unfold readUnsigned decimal?
  dsimp only
  rw [apply_ite (Option.map _), Option.map_none, Option.map_map]
  rfl

/-- A text of the decimal `c * 10 ^ q`. -/
structure Denotes (cs : List Char) (c : Nat) (q : Int) : Prop where
  numeral : IsNumeral cs
  exact : decimal? cs = some ⟨c, q⟩

theorem Denotes.read {cs : List Char} {c : Nat} {q : Int} (h : Denotes cs c q) :
    readUnsigned cs = some (ofDecimal c q) := by
  rw [readUnsigned_eq, h.exact, Option.map_some]

theorem span_digits {ds rest : List Char} (hds : AllDigits ds)
    (hrest : ∀ c ∈ rest.head?, c.isDigit = false) :
    (ds ++ rest).span Char.isDigit = (ds, rest) := by
  have hstop : rest.takeWhile Char.isDigit = [] ∧ rest.dropWhile Char.isDigit = rest := by
    cases rest with
    | nil => exact ⟨rfl, rfl⟩
    | cons c rest =>
      have hc := hrest c rfl
      exact ⟨List.takeWhile_cons_of_neg (by simp [hc]), List.dropWhile_cons_of_neg (by simp [hc])⟩
  rw [List.span_eq_takeWhile_dropWhile, List.takeWhile_append_of_pos hds,
    List.dropWhile_append_of_pos hds, hstop.1, hstop.2, List.append_nil]

theorem readExponent_exponentText (x : Int) : readExponent (exponentText x) = some x := by
  have hne : Nat.toDigits 10 x.natAbs ≠ [] := Nat.toDigits_ne_nil
  have hall : (Nat.toDigits 10 x.natAbs).all Char.isDigit = true :=
    List.all_eq_true.2 (allDigits_toDigits _)
  unfold exponentText
  by_cases hx : x < 0
  · simp only [if_pos hx, readExponent, readSign, true_or, if_true, hne, hall, ne_eq,
      not_false_eq_true, and_self, ofDigits_toDigits]
    congr 1
    omega
  · simp only [if_neg hx, readExponent, readSign, true_or, if_true, hne, hall, ne_eq,
      not_false_eq_true, and_self, ofDigits_toDigits]
    simp only [Bool.false_eq_true, if_false]
    congr 1
    omega

section Parts

variable {int fs power : List Char} {x : Int} (hne : int ≠ []) (hint : AllDigits int)
  (hpower : IsPower power) (hx : readExponent power = some x)
include hpower

theorem head_of_isPower : ∀ c ∈ power.head?, c.isDigit = false ∧ c ≠ '.' := by
  rcases hpower with rfl | ⟨e, sign, ds, rfl, he, -⟩
  · rintro _ ⟨⟩
  · rintro _ ⟨⟩
    rcases he with rfl | rfl <;> decide

include hne hint hx

theorem denotes_whole : Denotes (int ++ power) (ofDigits int) x := by
  have hhead := head_of_isPower hpower
  refine ⟨.mk hne hint (.inl rfl) hpower, ?_⟩
  unfold decimal?
  rw [span_digits hint fun c hc => (hhead c hc).1]
  rcases hpower with rfl | ⟨e, sign, ds, rfl, rfl | rfl, -⟩ <;> simp [hne, hx]

theorem denotes_fraction (hfs : AllDigits fs) :
    Denotes (int ++ ('.' :: fs ++ power)) (ofDigits (int ++ fs)) (x - fs.length) := by
  have hhead := head_of_isPower hpower
  have hpoint : ∀ c ∈ ('.' :: fs ++ power).head?, c.isDigit = false := by
    rintro _ ⟨⟩
    rfl
  refine ⟨.mk hne hint (.inr ⟨fs, rfl, hfs⟩) hpower, ?_⟩
  unfold decimal?
  rw [span_digits hint hpoint]
  simp only [List.cons_append]
  rw [span_digits hfs fun c hc => (hhead c hc).1]
  simp only [hne, false_and, if_false, hx, Option.map_some]

end Parts

theorem isPower_exponentText (x : Int) : IsPower (exponentText x) := by
  refine .inr ⟨'e', [if x < 0 then '-' else '+'], _, rfl, .inl rfl, ?_, Nat.toDigits_ne_nil,
    allDigits_toDigits _⟩
  split
  · exact .inr (.inr rfl)
  · exact .inr (.inl rfl)

/-! ## Layouts -/

theorem cast_zpow_sub (c : Nat) (x : Int) (n : Nat) :
    ((10 ^ n * c : Nat) * 10 ^ (x - n) : ℚ) = c * 10 ^ x := by
  rw [zpow_sub₀ (by norm_num), zpow_natCast]
  push_cast
  field_simp

/-- The text denotes the decimal with the digits `ds`, the first of which counts `10 ^ x`. -/
def Writes (cs ds : List Char) (x : Int) : Prop :=
  ∃ c q, Denotes cs c q ∧ (c * 10 ^ q : ℚ) = ofDigits ds * 10 ^ (x + 1 - ds.length)

section Positional

variable {ds : List Char} {x : Int} (hds : AllDigits ds)
include hds

theorem writes_leading (hx : x < 0) : Writes ('0' :: '.' :: zeros (-x - 1).toNat ++ ds) ds x := by
  obtain ⟨n, hn⟩ : ∃ n, (-x - 1).toNat = n := ⟨_, rfl⟩
  have h := denotes_fraction (by decide) (allDigits_zeros 1) (.inl rfl) rfl
    (allDigits_append (allDigits_zeros n) hds)
  rw [List.append_nil] at h
  rw [hn]
  refine ⟨_, _, h, ?_⟩
  have hzeros : zeros 1 ++ (zeros n ++ ds) = zeros (n + 1) ++ ds := rfl
  have hq : 0 - ((zeros n ++ ds).length : Int) = x + 1 - ds.length := by
    rw [List.length_append, zeros, List.length_replicate]
    omega
  rw [hq, hzeros, ofDigits_append, ofDigits_zeros, Nat.mul_zero, Nat.zero_add]

theorem writes_trailing (hne : ds ≠ []) (hx : 0 ≤ x) (hle : ds.length ≤ (x + 1).toNat)
    (point : Bool) :
    Writes (ds ++ zeros ((x + 1).toNat - ds.length) ++ (if point then ['.', '0'] else [])) ds x := by
  obtain ⟨n, hn⟩ : ∃ n, (x + 1).toNat - ds.length = n := ⟨_, rfl⟩
  have hcount : x + 1 - ds.length = n := by omega
  have hne' : ds ++ zeros n ≠ [] := List.append_ne_nil_of_left_ne_nil hne _
  have hdigits := allDigits_append hds (allDigits_zeros n)
  rw [hn]
  cases point with
  | true =>
    have h := denotes_fraction hne' hdigits (.inl rfl) rfl (allDigits_zeros 1)
    refine ⟨_, _, h, ?_⟩
    have hzeros : ds ++ zeros n ++ zeros 1 = ds ++ zeros (n + 1) := by
      rw [List.append_assoc, zeros, zeros, List.replicate_append_replicate]
      rfl
    have hq : 0 - ((zeros 1).length : Int) = n - (n + 1 : Nat) := by
      rw [zeros, List.length_replicate]
      omega
    rw [hzeros, ofDigits_append_zeros, hq, cast_zpow_sub, hcount]
  | false =>
    have h := denotes_whole hne' hdigits (.inl rfl) rfl
    refine ⟨_, _, h, ?_⟩
    rw [ofDigits_append_zeros, hcount, ← Int.sub_self (n : Int), cast_zpow_sub]

theorem writes_split (hx : 0 ≤ x) (hlt : (x + 1).toNat < ds.length) :
    Writes (ds.take (x + 1).toNat ++ '.' :: ds.drop (x + 1).toNat) ds x := by
  have hne : ds.take (x + 1).toNat ≠ [] := by
    rw [← List.length_pos_iff, List.length_take]
    omega
  have hfs : AllDigits (ds.drop (x + 1).toNat) := fun c hc => hds c (List.mem_of_mem_drop hc)
  have h := denotes_fraction hne (fun c hc => hds c (List.mem_of_mem_take hc)) (.inl rfl) rfl hfs
  rw [List.append_nil, List.take_append_drop] at h
  refine ⟨_, _, h, ?_⟩
  have hq : 0 - ((ds.drop (x + 1).toNat).length : Int) = x + 1 - ds.length := by
    rw [List.length_drop]
    omega
  rw [hq]

end Positional

theorem writes_power_single {d : Char} {x : Int} (hds : AllDigits [d]) :
    Writes (d :: exponentText x) [d] x := by
  have h := denotes_whole (List.cons_ne_nil d []) hds (isPower_exponentText x)
    (readExponent_exponentText x)
  refine ⟨_, _, h, ?_⟩
  rw [List.length_singleton, Nat.cast_one, Int.add_sub_cancel]

theorem writes_power {d : Char} {rest : List Char} {x : Int} (hds : AllDigits (d :: rest)) :
    Writes (d :: '.' :: rest ++ exponentText x) (d :: rest) x := by
  have hd : AllDigits [d] := by
    rintro _ (_ | ⟨_, ⟨⟩⟩)
    exact hds d List.mem_cons_self
  have h := denotes_fraction (List.cons_ne_nil d []) hd (isPower_exponentText x)
    (readExponent_exponentText x) (fun c hc => hds c (List.mem_cons_of_mem d hc))
  refine ⟨_, _, h, ?_⟩
  have hq : x + 1 - ((d :: rest).length : Int) = x - rest.length := by
    rw [List.length_cons]
    omega
  rw [hq, List.singleton_append]

/-- **Digits that are laid out read as the decimal that they count.** -/
theorem Layout.writes_write (l : Layout) {ds : List Char} {x : Int} (hne : ds ≠ [])
    (hds : AllDigits ds) : Writes (l.write ds x) ds x := by
  unfold Layout.write
  split
  · split
    · rename_i hx
      exact writes_leading hds hx
    · rename_i hx
      dsimp only
      split
      · rename_i hle
        exact writes_trailing hds hne (Int.not_lt.1 hx) hle l.pointZero
      · rename_i hlt
        exact writes_split hds (Int.not_lt.1 hx) (Nat.lt_of_not_le hlt)
  · split
    · exact absurd rfl hne
    · exact writes_power_single hds
    · exact writes_power hds

/-! ## Decimals -/

namespace Decimal

def written (d : Decimal) : List Char := (Nat.toDigits 10 d.digits).rdropWhile (· = '0')

def lead (d : Decimal) : Int := d.exponent + (Nat.toDigits 10 d.digits).length - 1

theorem writeDecimal_eq (l : Layout) (d : Decimal) : l.writeDecimal d = l.write d.written d.lead :=
  rfl

variable {d : Decimal}

/-- After the digits that are written only zeros follow. -/
theorem toDigits_eq (d : Decimal) : ∃ n, Nat.toDigits 10 d.digits = d.written ++ zeros n :=
  (Text.rdropWhile_eq_iff.1 rfl).1

theorem getLast?_written (d : Decimal) : d.written.getLast? ≠ some '0' :=
  (Text.rdropWhile_eq_iff.1 rfl).2

theorem allDigits_written (d : Decimal) : AllDigits d.written := by
  obtain ⟨n, hn⟩ := d.toDigits_eq
  exact fun c hc => allDigits_toDigits d.digits c (by rw [hn]; exact List.mem_append_left _ hc)

/-- The coefficient counts the zeros at its end. -/
theorem digits_eq (d : Decimal) : ∃ n, (Nat.toDigits 10 d.digits).length = d.written.length + n ∧
    d.digits = 10 ^ n * ofDigits d.written := by
  obtain ⟨n, hn⟩ := d.toDigits_eq
  refine ⟨n, ?_, ?_⟩
  · rw [hn, List.length_append, zeros, List.length_replicate]
  · rw [← ofDigits_append_zeros, ← hn, ofDigits_toDigits]

theorem written_ne_nil (hpos : 0 < d.digits) : d.written ≠ [] := by
  obtain ⟨n, -, hvalue⟩ := d.digits_eq
  intro hnil
  rw [hnil] at hvalue
  exact absurd hpos (by rw [hvalue]; exact Nat.lt_irrefl 0)

theorem head?_written (hpos : 0 < d.digits) : d.written.head? ≠ some '0' := by
  obtain ⟨n, hn⟩ := d.toDigits_eq
  obtain ⟨c, cs, hcs⟩ := List.exists_cons_of_ne_nil (written_ne_nil hpos)
  have hhead := head?_toDigits_ne hpos
  rw [hn, hcs] at hhead
  rwa [hcs]

/-- The digits that are written count what the decimal counts. -/
theorem value_written (d : Decimal) :
    (ofDigits d.written * 10 ^ (d.lead + 1 - d.written.length) : ℚ) =
      d.digits * 10 ^ d.exponent := by
  obtain ⟨n, hlength, hvalue⟩ := d.digits_eq
  have hx : d.lead + 1 - d.written.length = d.exponent + n := by
    rw [lead, hlength]
    push_cast
    omega
  rw [hx, hvalue, zpow_add₀ (by norm_num), zpow_natCast]
  push_cast
  ring

end Decimal

theorem Layout.denotes_writeDecimal (l : Layout) {d : Decimal} (hpos : 0 < d.digits) :
    ∃ c q, Denotes (l.writeDecimal d) c q ∧ (c * 10 ^ q : ℚ) = d.digits * 10 ^ d.exponent := by
  obtain ⟨c, q, h, hcq⟩ := l.writes_write (x := d.lead) (Decimal.written_ne_nil hpos)
    d.allDigits_written
  exact ⟨c, q, h, hcq.trans d.value_written⟩

end ScriptFold.Number
