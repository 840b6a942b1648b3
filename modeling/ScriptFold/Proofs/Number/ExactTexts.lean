import ScriptFold.Number.OfText
import ScriptFold.Proofs.Lexeme.StandsAlone
import ScriptFold.Proofs.Number.Comparison
import ScriptFold.Proofs.Number.Whole
import ScriptFold.Proofs.Value.Indexing

/-!
Texts of numbers are exact.

The text of a number denotes the decimal of its shortest digits, neither more nor less, in whatever
form it lays them out. It is read back as the number, as a text and as a token.
-/

namespace ScriptFold.Number

open Float.Model (UnpackedFloat)
open Float.Model.UnpackedFloat (Sign)

/-! ## Laying out digits step by step -/

/-- A number of zeros, unless it is negative. -/
def zeros? (n : Int) : Option (List Char) := if 0 ≤ n then some (zeros n.toNat) else none

def cut? (cs : List Char) (n : Int) : Option (List Char × List Char) :=
  if 0 ≤ n ∧ n ≤ cs.length then some (cs.take n.toNat, cs.drop n.toNat) else none

/-- Lays out the digits `ds`, the first of which counts `10 ^ x`, in one of four forms: with zeros
after the digits, with the point between them, with zeros before them, or with a power of ten. There
is no text if a step on the way cannot be done. -/
def layOut? (ds : List Char) (x : Int) : Option (List Char) :=
  let point := x + 1
  if ds.length ≤ point ∧ point ≤ 21 then
    (zeros? (point - ds.length)).map fun zs => ds ++ zs
  else if 0 < point ∧ point ≤ 21 then
    (cut? ds point).map fun (int, frac) => int ++ '.' :: frac
  else if -6 < point ∧ point ≤ 0 then
    (zeros? (-point)).map fun zs => '0' :: '.' :: zs ++ ds
  else
    (cut? ds 1).map fun (first, rest) =>
      (if rest = [] then first else first ++ '.' :: rest) ++ exponentText x

theorem zeros?_eq {n : Int} (h : 0 ≤ n) : zeros? n = some (zeros n.toNat) := if_pos h

theorem cut?_eq {cs : List Char} {n : Int} (h : 0 ≤ n) (hle : n ≤ cs.length) :
    cut? cs n = some (cs.take n.toNat, cs.drop n.toNat) := if_pos ⟨h, hle⟩

/-- All steps can be done, and the result is the text of the format. -/
theorem layOut?_eq {ds : List Char} (hne : ds ≠ []) (x : Int) :
    layOut? ds x = some (Layout.script.write ds x) := by
  have hpos := List.length_pos_iff.2 hne
  unfold layOut? Layout.write
  simp only [Layout.script, Bool.false_eq_true, if_false, List.append_nil]
  by_cases hrange : -6 ≤ x ∧ x ≤ 20
  · rw [if_pos hrange]
    by_cases hx : x < 0
    · rw [if_neg (by omega), if_neg (by omega), if_pos (by omega), if_pos hx, zeros?_eq (by omega),
        Option.map_some, show -(x + 1) = -x - 1 by omega]
    · rw [if_neg hx]
      by_cases hle : ds.length ≤ (x + 1).toNat
      · rw [if_pos (by omega), if_pos hle, zeros?_eq (by omega), Option.map_some]
        congr 3
        omega
      · rw [if_neg (by omega), if_pos (by omega), if_neg hle, cut?_eq (by omega) (by omega),
          Option.map_some]
  · rw [if_neg hrange, if_neg (by omega), if_neg (by omega), if_neg (by omega),
      cut?_eq (by omega) (by omega), Option.map_some]
    obtain ⟨d, ds, rfl⟩ := List.exists_cons_of_ne_nil hne
    cases ds <;> rfl

/-! ## What texts denote -/

/-- The rational number that a decimal text with an optional sign denotes. -/
def worth? (cs : List Char) : Option ℚ :=
  let (negative, rest) := readSign cs
  (decimal? rest).map fun d => (if negative then -1 else 1) * (d.digits * 10 ^ d.exponent)

theorem worth?_of_denotes (negative : Bool) {cs : List Char} {c : Nat} {q : Int}
    (h : Denotes cs c q) :
    worth? (signText negative ++ cs) = some ((if negative then -1 else 1) * (c * 10 ^ q : ℚ)) := by
  unfold worth?
  rw [readSign_numeral negative h.numeral]
  simp only [h.exact, Option.map_some]

/-! ## Reading texts as numbers -/

theorem char_of_mem_signed (negative : Bool) {cs : List Char} (h : IsNumeral cs) :
    ∀ c ∈ signText negative ++ cs, c.isDigit ∨ c ∈ numeralMarks := by
  intro c hc
  rcases List.mem_append.1 hc with hc | hc
  · cases negative with
    | true => exact .inr (by rw [List.mem_singleton.1 hc]; decide)
    | false => cases hc
  · exact char_of_mem_numeral h c hc

theorem isMargin_of_digit {c : Char} (h : c.isDigit) : isMargin c = false := by
  rw [isMargin, not_isBlank_of_isDigit h, decide_eq_false (ne_of_isDigit h (by decide))]
  rfl

theorem withoutMargin_of_inner {cs : List Char} (h : ∀ c ∈ cs, isMargin c = false) :
    withoutMargin cs = cs := by
  have hkeep : ∀ ds : List Char, (∀ c ∈ ds, isMargin c = false) → ds.dropWhile isMargin = ds := by
    intro ds hds
    cases ds with
    | nil => rfl
    | cons c ds =>
      exact List.dropWhile_cons_of_neg (by rw [hds c List.mem_cons_self]; decide)
  rw [withoutMargin, hkeep cs h, hkeep _ fun c hc => h c (List.mem_reverse.1 hc),
    List.reverse_reverse]

/-- The marks of other radixes have a letter that no numeral has. -/
theorem radixMark?_eq_none {cs : List Char} (h : ∀ c ∈ cs, c.isDigit ∨ c ∈ numeralMarks) :
    radixMark? cs = none := by
  have hmarks : ∀ mark ∈ radixMarks, ∃ c ∈ mark.1, ¬(c.isDigit ∨ c ∈ numeralMarks) := by
    intro mark hmark
    simp only [radixMarks, List.mem_cons, List.not_mem_nil, or_false] at hmark
    rcases hmark with rfl | rfl | rfl | rfl | rfl | rfl <;>
      exact ⟨_, List.mem_cons_of_mem _ List.mem_cons_self, by decide⟩
  refine List.findSome?_eq_none_iff.2 fun mark hmark => ?_
  obtain ⟨c, hc, hnot⟩ := hmarks mark hmark
  refine Option.map_eq_none_iff.2 (Option.eq_none_iff_forall_ne_some.2 fun ds hds => hnot (h c ?_))
  rw [Text.dropStart?_eq_some_iff.1 hds]
  exact List.mem_append_left _ hc

/-- A numeral with a sign is read as a decimal text. -/
theorem ofText_signed (negative : Bool) {cs : List Char} (h : IsNumeral cs) :
    ofText (String.ofList (signText negative ++ cs)) =
      (readDecimal (signText negative ++ cs)).getD nan := by
  have hchars := char_of_mem_signed negative h
  have hinner : ∀ c ∈ signText negative ++ cs, isMargin c = false := by
    intro c hc
    rcases hchars c hc with hd | hc
    · exact isMargin_of_digit hd
    · exact forall_of_all (p := (isMargin · = false)) (by decide +kernel) c hc
  have hne : signText negative ++ cs ≠ [] := List.append_ne_nil_of_right_ne_nil _ h.ne_nil
  have hnotI : 'I' ∉ signText negative ++ cs := fun hI => absurd (hchars 'I' hI) (by decide)
  have hwords : ∀ word : String, 'I' ∈ word.toList → signText negative ++ cs ≠ word.toList :=
    fun word hword heq => hnotI (heq ▸ hword)
  rw [ofText, String.toList_ofList, withoutMargin_of_inner hinner, ofTrimmed, if_neg hne,
    if_neg (not_or.2 ⟨hwords _ (by decide), hwords _ (by decide)⟩), if_neg (hwords _ (by decide)),
    radixMark?_eq_none hchars]

/-! ## Reading texts as tokens -/

theorem tokenize_numeral {cs : List Char} (h : IsNumeral cs) :
    tokenize (String.ofList cs) = ⟨[⟨.number ((readUnsigned cs).getD 0.0), ⟨0, byteLength cs⟩⟩,
      ⟨.eof, ⟨byteLength cs, byteLength cs⟩⟩], []⟩ := by
  obtain ⟨c, cs, rfl⟩ := List.exists_cons_of_ne_nil h.ne_nil
  have hcloses : Closes [','] := ⟨',', by decide, [], rfl⟩
  have hclosed := scan_numeral h hcloses
  obtain ⟨more, after, hsplit, hlength, halone⟩ := standsAlone_scan c hclosed
  obtain ⟨rfl, -⟩ := List.append_inj hsplit hlength
  have hscan := halone [] apart_nil
  rw [List.append_nil] at hscan
  rw [tokenize, String.toList_ofList, lexemes, hscan]
  simp only [List.take_length, List.drop_length, lexemes, Lexed.place, Nat.zero_add]
  rfl

/-! ## Shortest digits -/

/-- The rational number `r` rounds to the size of a finite number. -/
def RoundsTo (r : ℚ) (y : Float) : Prop :=
  ∃ s m e hm, y.toModel.unpack = .finite s m e hm ∧ Rounds r m e

/-- The digits `ds`, the first of which counts `10 ^ x`, without needless zeros, round to the size
of a number, and no decimal with fewer digits does. -/
structure IsShortest (y : Float) (ds : List Char) (x : Int) : Prop where
  ne_nil : ds ≠ []
  digits : AllDigits ds
  head : ds.head? ≠ some '0'
  last : ds.getLast? ≠ some '0'
  rounds : RoundsTo (ofDigits ds * 10 ^ (x + 1 - ds.length)) y
  fewest : ∀ (c : Nat) (q : Int), 0 < c → RoundsTo (c * 10 ^ q) y →
    ds.length ≤ (Nat.toDigits 10 c).length

theorem isShortest_written (tie : Tie) {y : Float} {s : Sign} {m : Nat} {e : Int} {hm : 0 < m}
    (hy : y.toModel.unpack = .finite s m e hm) :
    IsShortest y (shortest tie m e).written (shortest tie m e).lead := by
  have h := canonical_of_unpack hy
  obtain ⟨hpos, hrounds⟩ := rounds_shortest tie h
  refine ⟨Decimal.written_ne_nil hpos, Decimal.allDigits_written _, Decimal.head?_written hpos,
    Decimal.getLast?_written _, ⟨s, m, e, hm, hy, by rwa [Decimal.value_written]⟩, ?_⟩
  rintro c q hc ⟨s', m', e', hm', hy', hc'⟩
  rw [hy] at hy'
  cases hy'
  exact length_written_le h hc hc'

/-! ## Numbers -/

theorem unpack_of_ne_zero {y : Float} (hfinite : y.isFinite) (hzero : (y == 0.0) = false) :
    ∃ s m e hm, y.toModel.unpack = .finite s m e hm := by
  have hfinite : y.toModel.unpack.isFinite = true := hfinite
  have hoff : outcome y 0.0 ≠ some .eq := fun h => by
    rw [beq_iff.2 h] at hzero
    cases hzero
  have hnil : (0.0 : Float).toModel.unpack = .zero .positive := rfl
  rw [outcome, hnil] at hoff
  cases hy : y.toModel.unpack with
  | notANumber => rw [hy] at hfinite; cases hfinite
  | infinity s => rw [hy] at hfinite; cases hfinite
  | zero s =>
    rw [hy] at hoff
    exact absurd rfl hoff
  | finite s m e hm => exact ⟨s, m, e, hm, rfl⟩

theorem isNegative_of_pos {y : Float} (h : 0.0 < y) : isNegative y = false := by
  have hlt := lt_iff.1 h
  have hnil : (0.0 : Float).toModel.unpack = .zero .positive := rfl
  rw [outcome, hnil] at hlt
  unfold isNegative
  split
  · rename_i hy
    rw [hy] at hlt
    cases hlt
  · rename_i hy
    rw [hy] at hlt
    cases hlt
  · rfl

/-- The text of a number: its sign, and the digits of its size laid out. -/
theorem toText_of_finite {y : Float} {s : Sign} {m : Nat} {e : Int} {hm : 0 < m}
    (hy : y.toModel.unpack = .finite s m e hm) :
    toText y = String.ofList (signText (isNegative y) ++
      Layout.script.writeDecimal (shortest Layout.script.tie m e)) := by
  rw [isNegative_of_finite hy]
  unfold toText
  rw [hy]
  cases s <;> rfl

/-- The text of a number, of which `ds` are the shortest digits and `x` is the power of ten that the
first of them counts. -/
structure ExactText (y : Float) (ds : List Char) (x : Int) : Prop where
  shortest : IsShortest y ds x
  /-- The digits can be laid out, and the text is that, with the sign. -/
  text : ∃ cs, layOut? ds x = some cs ∧ (toText y).toList = signText (isNegative y) ++ cs
  worth : worth? (toText y).toList =
    some ((if isNegative y then -1 else 1) * (ofDigits ds * 10 ^ (x + 1 - ds.length) : ℚ))
  readBack : ofText (toText y) = y
  token : 0.0 < y → let n := byteLength (toText y).toList
    tokenize (toText y) = ⟨[⟨.number y, ⟨0, n⟩⟩, ⟨.eof, ⟨n, n⟩⟩], []⟩

theorem exactText {y : Float} {s : Sign} {m : Nat} {e : Int} {hm : 0 < m}
    (hy : y.toModel.unpack = .finite s m e hm) :
    ExactText y (shortest Layout.script.tie m e).written (shortest Layout.script.tie m e).lead := by
  have hshortest := isShortest_written Layout.script.tie hy
  obtain ⟨c, q, hdenotes, hvalue, hread⟩ := Layout.script.denotes_shortest hy
  have htext := toText_of_finite hy
  refine ⟨hshortest, ⟨_, layOut?_eq hshortest.ne_nil _, ?_⟩, ?_, ?_, fun hlt => ?_⟩
  · rw [htext, String.toList_ofList, Decimal.writeDecimal_eq]
  · rw [Decimal.value_written, htext, String.toList_ofList, worth?_of_denotes _ hdenotes, hvalue]
  · rw [htext, ofText_signed _ hdenotes.numeral, readDecimal,
      readSign_numeral _ hdenotes.numeral]
    simp only [hread, Option.map_some, Option.getD_some]
    split
    · rename_i hnegative
      exact neg_size hnegative
    · rename_i hnegative
      rw [size, if_neg hnegative]
  · have hplain := isNegative_of_pos hlt
    rw [htext, hplain, signText, if_neg (by decide), List.nil_append,
      tokenize_numeral hdenotes.numeral, hread, Option.getD_some, size, hplain, if_neg (by decide),
      String.toList_ofList]

/-- **The text of a number is exact.** Any digits can be laid out, wherever the point is, and the
text denotes what they count.

The text of a finite number that is not zero is its sign and its shortest digits laid out. So it
denotes what these digits count, with the sign; it is read back as the number; and if the number is
positive, the text is a single token with this number.

The text of a natural number below `2 ^ 32 - 1` is the written number, so as a key it reaches the
item of an array that is there. -/
theorem toText_exact :
    (∀ ds x, ds ≠ [] → AllDigits ds → ∃ cs, layOut? ds x = some cs ∧
      worth? cs = some (ofDigits ds * 10 ^ (x + 1 - ds.length) : ℚ)) ∧
    (∀ y : Float, y.isFinite → (y == 0.0) = false → ∃ ds x, ExactText y ds x) ∧
    ∀ i < 2 ^ 32 - 1, toText (Float.ofNat i) = toString i ∧
      ∀ identity items v, items[i]? = some v →
        (Value.array identity items).get (Value.number (Float.ofNat i)).toKey = .ok v := by
  refine ⟨fun ds x hne hds => ⟨_, layOut?_eq hne x, ?_⟩, fun y hfinite hzero => ?_, fun i hi => ?_⟩
  · obtain ⟨c, q, hdenotes, hvalue⟩ := Layout.script.writes_write (x := x) hne hds
    have hworth := worth?_of_denotes false hdenotes
    rwa [hvalue, if_neg (by decide), one_mul] at hworth
  · obtain ⟨s, m, e, hm, hy⟩ := unpack_of_ne_zero hfinite hzero
    exact ⟨_, _, exactText hy⟩
  · have htext := toText_ofNat (n := i) (hi.trans (by norm_num))
    refine ⟨htext, fun identity items v hv => ?_⟩
    obtain ⟨hlt, -⟩ := List.getElem?_eq_some_iff.1 hv
    obtain ⟨w, hw, hget⟩ := (Value.indexed_array identity items).item i hlt hi
    have hkey : (Value.number (Float.ofNat i)).toKey = toString i := htext
    rw [hkey, hget, Option.some.inj (hw.symm.trans hv)]

/-- Of the digits `15`, a number that is written with a power of ten, and a key. -/
theorem toText_exact_power :
    (∃ cs, layOut? ['1', '5'] (-7) = some cs ∧
      worth? cs = some (ofDigits ['1', '5'] * 10 ^ (-7 + 1 - (['1', '5'].length : Int)) : ℚ)) ∧
    ofText (toText 1.5e-7) = 1.5e-7 ∧
    (∃ n, tokenize (toText 1.5e-7) = ⟨[⟨.number 1.5e-7, ⟨0, n⟩⟩, ⟨.eof, ⟨n, n⟩⟩], []⟩) ∧
    (Value.array ⟨.given 0, []⟩ [.null]).get (Value.number (Float.ofNat 0)).toKey = .ok .null := by
  obtain ⟨hdigits, hnumbers, hkeys⟩ := toText_exact
  obtain ⟨ds, x, h⟩ := hnumbers 1.5e-7 (by decide +kernel) (by decide +kernel)
  exact ⟨hdigits _ _ (by decide) (forall_of_all (by decide)), h.readBack,
    ⟨_, h.token (by decide +kernel)⟩, (hkeys 0 (by decide)).2 _ _ _ rfl⟩

end ScriptFold.Number
