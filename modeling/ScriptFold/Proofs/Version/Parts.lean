import Mathlib.Data.List.Forall2
import ScriptFold.Proofs.Number.Texts
import ScriptFold.Proofs.Version.Comparators

/-!
The parts of texts that write versions and patterns.

Parts stand between points. Those of the numbers are digits, perhaps with zeros before them, or
signs for open numbers; those of a tag are digits or words, which may have hyphens. Each reader of
parts accepts exactly the texts that write something (`numbersWrittenAs_iff`,
`tagsOfText?_eq_some_iff`), and no part has blanks or a plus sign.
-/

namespace ScriptFold

open Text (IsWord)

/-! ## Parts between points -/

section Parts

variable {c : Char} {cs : List Char} {parts : List (List Char)}

/-- The characters between points belong to the parts. -/
theorem mem_intercalate_point (hc : c ∈ ['.'].intercalate parts) :
    c = '.' ∨ ∃ cs ∈ parts, c ∈ cs := by
  induction parts with
  | nil => cases hc
  | cons cs parts ih =>
    cases parts with
    | nil =>
      rw [List.intercalate_singleton] at hc
      exact .inr ⟨cs, List.mem_cons_self, hc⟩
    | cons ds parts =>
      rw [List.intercalate_cons_cons, List.append_assoc, List.mem_append, List.singleton_append,
        List.mem_cons] at hc
      rcases hc with hc | rfl | hc
      · exact .inr ⟨cs, List.mem_cons_self, hc⟩
      · exact .inl rfl
      · rcases ih hc with rfl | ⟨es, hes, hc⟩
        · exact .inl rfl
        · exact .inr ⟨es, List.mem_cons_of_mem cs hes, hc⟩

theorem intercalate_point_ne_nil (hcs : cs ≠ []) (parts : List (List Char)) :
    ['.'].intercalate (cs :: parts) ≠ [] := by
  obtain ⟨c, cs, rfl⟩ := List.exists_cons_of_ne_nil hcs
  rw [List.intercalate_cons_cons_left]
  exact List.cons_ne_nil _ _

theorem Version.Pattern.intercalate_parts (cs : List Char) :
    ['.'].intercalate (Pattern.parts cs) = cs := by
  unfold Pattern.parts
  split
  · rename_i hnil
    rw [hnil]
    rfl
  · exact List.intercalate_splitOn '.'

/-- Parts are found again if they are not empty and have no points. -/
theorem Version.Pattern.parts_intercalate (h : ∀ cs ∈ parts, cs ≠ [] ∧ '.' ∉ cs) :
    Pattern.parts (['.'].intercalate parts) = parts := by
  cases parts with
  | nil => rfl
  | cons cs rest =>
    rw [Pattern.parts, if_neg (intercalate_point_ne_nil (h cs List.mem_cons_self).1 rest)]
    exact List.splitOn_intercalate '.' (fun ds hds => (h ds hds).2) (List.cons_ne_nil _ _)

end Parts

theorem mapM_eq_some_iff {α β : Type} {f : α → Option β} {xs : List α} {ys : List β} :
    xs.mapM f = some ys ↔ List.Forall₂ (fun y x => f x = some y) ys xs := by
  induction xs generalizing ys with
  | nil => simp [eq_comm]
  | cons x xs ih =>
    rw [List.mapM_cons, List.forall₂_cons_right_iff]
    constructor
    · intro h
      obtain ⟨z, hz, h⟩ := Option.bind_eq_some_iff.1 h
      obtain ⟨zs, hzs, h⟩ := Option.bind_eq_some_iff.1 h
      cases h
      exact ⟨z, zs, hz, ih.1 hzs, rfl⟩
    · rintro ⟨z, zs, hz, hzs, rfl⟩
      rw [hz, ih.2 hzs]
      rfl

theorem exists_of_forall₂ {α β : Type} {R : α → β → Prop} {xs : List α} {ys : List β}
    (h : List.Forall₂ R xs ys) : ∀ y ∈ ys, ∃ x ∈ xs, R x y := by
  induction h with
  | nil => exact List.forall_mem_nil _
  | cons hxy _ ih =>
    refine List.forall_mem_cons.2 ⟨⟨_, List.mem_cons_self, hxy⟩, fun y hy => ?_⟩
    obtain ⟨x, hx, hxy⟩ := ih y hy
    exact ⟨x, List.mem_cons_of_mem _ hx, hxy⟩

/-! ## Numbers -/

namespace Version

/-- Digits that denote a number of 64 bits. Zeros may stand before them. -/
structure IsNumber (n : Nat) (cs : List Char) : Prop where
  ne_nil : cs ≠ []
  digits : AllDigits cs
  value : Number.ofDigits cs = n
  bound : n < UInt64.size

variable {n : Nat} {cs : List Char}

theorem isNumber_toDigits (h : n < UInt64.size) : IsNumber n (Nat.toDigits 10 n) where
  ne_nil := Nat.toDigits_ne_nil
  digits := Number.allDigits_toDigits n
  value := Number.ofDigits_toDigits n
  bound := h

theorem number?_eq_some_iff : number? cs = some n ↔ IsNumber n cs := by
  rw [number?, Option.ite_none_right_eq_some, Option.ite_none_right_eq_some]
  constructor
  · rintro ⟨⟨hne, hdigits⟩, hbound, hvalue⟩
    exact ⟨hne, List.all_eq_true.1 hdigits, Option.some.inj hvalue, Option.some.inj hvalue ▸ hbound⟩
  · rintro ⟨hne, hdigits, rfl, hbound⟩
    exact ⟨⟨hne, List.all_eq_true.2 hdigits⟩, hbound, rfl⟩

end Version

/-! ## Tags -/

namespace Tag

open Version (IsNumber)

/-- The text writes the part of a tag: a number, or a word of letters, digits and hyphens that are
not all digits. -/
def WrittenAs : Tag → List Char → Prop
  | numeric n, cs => IsNumber n cs
  | alpha s, cs => cs = s.toList ∧ (∀ c ∈ cs, c.isAlphanum ∨ c = '-') ∧ ∃ c ∈ cs, c.isDigit = false

/-- Some text writes the part. -/
def WellFormed : Tag → Prop
  | numeric n => n < UInt64.size
  | alpha s => (∀ c ∈ s.toList, c.isAlphanum ∨ c = '-') ∧ ∃ c ∈ s.toList, c.isDigit = false

variable {t : Tag} {cs : List Char}

theorem WellFormed.writtenAs_text (h : t.WellFormed) : t.WrittenAs t.text.toList := by
  cases t with
  | numeric n =>
    have htext : (numeric n).text.toList = Nat.toDigits 10 n := String.toList_ofList
    rw [htext]
    exact Version.isNumber_toDigits h
  | alpha s => exact ⟨rfl, h⟩

namespace WrittenAs

theorem wellFormed (h : t.WrittenAs cs) : t.WellFormed := by
  cases t with
  | numeric n => exact h.bound
  | alpha s =>
    obtain ⟨rfl, h⟩ := h
    exact h

theorem ne_nil (h : t.WrittenAs cs) : cs ≠ [] := by
  cases t with
  | numeric n => exact IsNumber.ne_nil h
  | alpha s =>
    obtain ⟨-, -, c, hc, -⟩ := h
    exact List.ne_nil_of_mem hc

theorem chars (h : t.WrittenAs cs) : ∀ c ∈ cs, c.isAlphanum ∨ c = '-' := by
  cases t with
  | numeric n =>
    intro c hc
    have hdigit : c.isDigit := IsNumber.digits h c hc
    exact .inl (by simp [Char.isAlphanum, hdigit])
  | alpha s => exact h.2.1

theorem point_notMem (h : t.WrittenAs cs) : '.' ∉ cs := fun hpoint =>
  absurd (h.chars '.' hpoint) (by decide)

end WrittenAs

end Tag

namespace Version

theorem Tag.ofText?_eq_some_iff {t : ScriptFold.Tag} {cs : List Char} :
    Tag.ofText? cs = some t ↔ t.WrittenAs cs := by
  unfold Tag.ofText?
  by_cases hdigits : cs.all Char.isDigit
  · -- Only a number has nothing but digits.
    have halpha (s : String) : ¬ (ScriptFold.Tag.alpha s).WrittenAs cs := by
      rintro ⟨-, -, c, hc, hdigit⟩
      rw [List.all_eq_true.1 hdigits c hc] at hdigit
      cases hdigit
    simp only [hdigits, if_true, Option.ite_none_left_eq_some, Option.map_eq_some_iff,
      number?_eq_some_iff]
    constructor
    · rintro ⟨-, n, hn, rfl⟩
      exact hn
    · intro h
      cases t with
      | numeric n => exact ⟨h.ne_nil, n, h, rfl⟩
      | alpha s => exact absurd h (halpha s)
  · have hnumeric (n : Nat) : ¬ (ScriptFold.Tag.numeric n).WrittenAs cs := fun h =>
      hdigits (List.all_eq_true.2 (IsNumber.digits h))
    simp only [hdigits, Bool.false_eq_true, if_false, Option.ite_none_left_eq_some,
      Option.ite_none_right_eq_some]
    constructor
    · rintro ⟨-, hchars, h⟩
      cases h
      refine ⟨String.toList_ofList.symm, by simpa using hchars, ?_⟩
      simpa using hdigits
    · intro h
      cases t with
      | numeric n => exact absurd h (hnumeric n)
      | alpha s =>
        refine ⟨h.ne_nil, by simpa using h.chars, ?_⟩
        rw [h.1, String.ofList_toList]

/-- The text writes the parts of a tag, of which there is at least one. -/
def PartsWrittenAs (ts : List Tag) (cs : List Char) : Prop :=
  ts ≠ [] ∧ ∃ parts, List.Forall₂ ScriptFold.Tag.WrittenAs ts parts ∧ cs = ['.'].intercalate parts

theorem tagsOfText?_eq_some_iff {ts : List Tag} {cs : List Char} :
    tagsOfText? cs = some ts ↔ PartsWrittenAs ts cs := by
  have hread (parts : List (List Char)) : parts.mapM Tag.ofText? = some ts ↔
      List.Forall₂ ScriptFold.Tag.WrittenAs ts parts := by
    simp only [mapM_eq_some_iff, Tag.ofText?_eq_some_iff]
  rw [tagsOfText?, hread]
  constructor
  · intro h
    refine ⟨?_, cs.splitOn '.', h, (List.intercalate_splitOn '.').symm⟩
    rintro rfl
    have hnil : cs.splitOn '.' = [] := List.forall₂_nil_left_iff.1 h
    exact absurd hnil (List.splitOn_ne_nil _ _)
  · rintro ⟨hne, parts, h, rfl⟩
    have hpoint : ∀ cs ∈ parts, '.' ∉ cs := by
      intro cs hcs
      obtain ⟨t, -, ht⟩ := exists_of_forall₂ h cs hcs
      exact ht.point_notMem
    have hparts : parts ≠ [] := by
      rintro rfl
      exact hne (List.forall₂_nil_right_iff.1 h)
    rwa [List.splitOn_intercalate '.' hpoint hparts]

/-! ## Numbers of patterns -/

/-- The text writes the numbers of a pattern and, after them, its open parts. -/
def NumbersWrittenAs (ns : List Nat) (cs : List Char) : Prop :=
  ∃ numbers wilds, List.Forall₂ IsNumber ns numbers ∧ (∀ w ∈ wilds, Pattern.isWild w) ∧
    numbers.length + wilds.length ≤ 3 ∧ cs = ['.'].intercalate (numbers ++ wilds)

namespace Pattern

variable {ns : List Nat} {cs : List Char} {parts : List (List Char)}

theorem isWild_iff : isWild cs ↔ cs = ['x'] ∨ cs = ['X'] ∨ cs = ['*'] := by
  simp [isWild, or_assoc]

theorem isWild_of_isNumber {n : Nat} (h : IsNumber n cs) : isWild cs = false := by
  have hne (x : Char) (hx : x.isDigit = false) : cs ≠ [x] := by
    rintro rfl
    rw [h.digits x List.mem_cons_self] at hx
    cases hx
  simp [isWild, hne 'x' rfl, hne 'X' rfl, hne '*' rfl]

theorem numbers?_eq_some_iff : numbers? parts = some ns ↔
    ∃ numbers wilds, List.Forall₂ IsNumber ns numbers ∧ (∀ w ∈ wilds, isWild w) ∧
      parts = numbers ++ wilds := by
  induction parts generalizing ns with
  | nil =>
    constructor
    · intro h
      cases h
      exact ⟨[], [], .nil, List.forall_mem_nil _, rfl⟩
    · rintro ⟨numbers, wilds, hnumbers, -, heq⟩
      obtain ⟨rfl, -⟩ := List.append_eq_nil_iff.1 heq.symm
      rw [List.forall₂_nil_right_iff.1 hnumbers]
      rfl
  | cons cs parts ih =>
    rw [numbers?]
    by_cases hwild : isWild cs
    · rw [if_pos hwild, Option.ite_none_right_eq_some]
      constructor
      · rintro ⟨hall, h⟩
        cases h
        exact ⟨[], cs :: parts, .nil, List.forall_mem_cons.2 ⟨hwild, List.all_eq_true.1 hall⟩, rfl⟩
      · rintro ⟨numbers, wilds, hnumbers, hwilds, heq⟩
        cases hnumbers with
        | nil =>
          rw [List.nil_append] at heq
          subst heq
          exact ⟨List.all_eq_true.2 (List.forall_mem_cons.1 hwilds).2, rfl⟩
        | cons hn _ =>
          obtain ⟨rfl, -⟩ := List.cons.inj heq
          rw [isWild_of_isNumber hn] at hwild
          cases hwild
    · rw [if_neg hwild]
      constructor
      · intro h
        obtain ⟨n, hn, h⟩ := Option.bind_eq_some_iff.1 h
        obtain ⟨ms, hms, h⟩ := Option.bind_eq_some_iff.1 h
        cases h
        obtain ⟨numbers, wilds, hnumbers, hwilds, rfl⟩ := ih.1 hms
        exact ⟨cs :: numbers, wilds, .cons (number?_eq_some_iff.1 hn) hnumbers, hwilds, rfl⟩
      · rintro ⟨numbers, wilds, hnumbers, hwilds, heq⟩
        cases hnumbers with
        | nil =>
          rw [List.nil_append] at heq
          subst heq
          exact absurd (List.forall_mem_cons.1 hwilds).1 hwild
        | cons hn hrest =>
          obtain ⟨rfl, rfl⟩ := List.cons.inj heq
          rw [number?_eq_some_iff.2 hn, ih.2 ⟨_, _, hrest, hwilds, rfl⟩]
          rfl

theorem parts_spec (hnumbers : NumbersWrittenAs ns cs) : (Pattern.parts cs).length ≤ 3 ∧
    numbers? (Pattern.parts cs) = some ns := by
  obtain ⟨numbers, wilds, hnumbers, hwilds, hlength, rfl⟩ := hnumbers
  have hparts : ∀ ds ∈ numbers ++ wilds, ds ≠ [] ∧ '.' ∉ ds := by
    intro ds hds
    rcases List.mem_append.1 hds with hds | hds
    · obtain ⟨n, -, hn⟩ := exists_of_forall₂ hnumbers ds hds
      exact ⟨hn.ne_nil, fun hpoint => absurd (hn.digits '.' hpoint) (by decide)⟩
    · rcases isWild_iff.1 (hwilds ds hds) with rfl | rfl | rfl <;> decide
  rw [parts_intercalate hparts]
  exact ⟨by simpa using hlength, numbers?_eq_some_iff.2 ⟨numbers, wilds, hnumbers, hwilds, rfl⟩⟩

/-- Numbers are read from a text exactly if the text writes them. -/
theorem numbersWrittenAs_iff : NumbersWrittenAs ns cs ↔
    (Pattern.parts cs).length ≤ 3 ∧ numbers? (Pattern.parts cs) = some ns := by
  refine ⟨parts_spec, fun ⟨hlength, h⟩ => ?_⟩
  obtain ⟨numbers, wilds, hnumbers, hwilds, heq⟩ := numbers?_eq_some_iff.1 h
  rw [heq, List.length_append] at hlength
  exact ⟨numbers, wilds, hnumbers, hwilds, hlength, by rw [← heq, intercalate_parts]⟩

end Pattern

end Version

/-! ## Characters -/

/-- The characters in texts of versions and patterns, but for what may stand before and after. -/
def IsVersionChar (c : Char) : Prop := c.isAlphanum ∨ c ∈ ['-', '.', '*']

instance : DecidablePred IsVersionChar := fun c =>
  inferInstanceAs (Decidable (c.isAlphanum ∨ c ∈ ['-', '.', '*']))

namespace IsVersionChar

variable {c : Char} {cs : List Char}

theorem of_isDigit (h : c.isDigit) : IsVersionChar c := .inl (by simp [Char.isAlphanum, h])

theorem bounds (h : IsVersionChar c) : 42 ≤ c.toNat ∧ c.toNat ≤ 122 := by
  rcases h with h | h
  · simp only [Char.isAlphanum, Char.isAlpha, Char.isUpper, Char.isLower, Char.isDigit,
      Bool.or_eq_true, Bool.and_eq_true, decide_eq_true_eq, ge_iff_le, UInt32.le_iff_toNat_le] at h
    change (((65 ≤ c.toNat ∧ c.toNat ≤ 90) ∨ (97 ≤ c.toNat ∧ c.toNat ≤ 122)) ∨
      (48 ≤ c.toNat ∧ c.toNat ≤ 57)) at h
    omega
  · exact forall_of_all (p := fun c => 42 ≤ c.toNat ∧ c.toNat ≤ 122) (by decide) c h

theorem not_isBlank (h : IsVersionChar c) : Text.isBlank c = false := by
  have hbounds := h.bounds
  rw [Bool.eq_false_iff, Text.isBlank, ne_eq, Text.inRanges_eq_true_iff]
  rintro ⟨r, hr, hlow, hhigh⟩
  have hranges : ∀ r ∈ Text.blankRanges, r.2 < 42 ∨ 122 < r.1 := by decide
  rcases hranges r hr with h | h <;> omega

theorem ne (h : IsVersionChar c) {x : Char} (hx : ¬ IsVersionChar x) : c ≠ x := by
  rintro rfl
  exact hx h

theorem isWord (hne : cs ≠ []) (h : ∀ c ∈ cs, IsVersionChar c) : IsWord cs where
  ne_nil := hne
  unbroken c hc := (h c hc).not_isBlank
  noBar hbar := (h '|' (hbar.subset List.mem_cons_self)).ne (by decide) rfl

end IsVersionChar

namespace Version

variable {ns : List Nat} {ts : List Tag} {cs : List Char}

/-- The text writes a tag with the hyphen before it, or there is no tag. -/
def TagWrittenAs (ts : List Tag) (cs : List Char) : Prop :=
  (ts = [] ∧ cs = []) ∨ ∃ ds, PartsWrittenAs ts ds ∧ cs = '-' :: ds

theorem NumbersWrittenAs.chars (h : NumbersWrittenAs ns cs) :
    ∀ c ∈ cs, c.isDigit ∨ c ∈ ['.', 'x', 'X', '*'] := by
  obtain ⟨numbers, wilds, hnumbers, hwilds, -, rfl⟩ := h
  intro c hc
  rcases mem_intercalate_point hc with rfl | ⟨ds, hds, hc⟩
  · exact .inr (by decide)
  rcases List.mem_append.1 hds with hds | hds
  · obtain ⟨n, -, hn⟩ := exists_of_forall₂ hnumbers ds hds
    exact .inl (hn.digits c hc)
  · rcases Pattern.isWild_iff.1 (hwilds ds hds) with rfl | rfl | rfl <;>
      exact .inr (by rw [List.mem_singleton.1 hc]; decide)

theorem NumbersWrittenAs.isVersionChar (h : NumbersWrittenAs ns cs) : ∀ c ∈ cs, IsVersionChar c := by
  intro c hc
  rcases h.chars c hc with hc | hc
  · exact .of_isDigit hc
  · exact forall_of_all (by decide) c hc

theorem NumbersWrittenAs.hyphen_notMem (h : NumbersWrittenAs ns cs) : '-' ∉ cs := fun hc =>
  absurd (h.chars '-' hc) (by decide)

theorem TagWrittenAs.isVersionChar (h : TagWrittenAs ts cs) : ∀ c ∈ cs, IsVersionChar c := by
  rcases h with ⟨-, rfl⟩ | ⟨ds, ⟨-, parts, hparts, rfl⟩, rfl⟩
  · exact List.forall_mem_nil _
  · refine List.forall_mem_cons.2 ⟨.inr (by decide), fun c hc => ?_⟩
    rcases mem_intercalate_point hc with rfl | ⟨es, hes, hc⟩
    · exact .inr (by decide)
    · obtain ⟨t, -, ht⟩ := exists_of_forall₂ hparts es hes
      exact (ht.chars c hc).imp_right fun hc => by rw [hc]; decide

theorem NumbersWrittenAs.bound (h : NumbersWrittenAs ns cs) : ∀ n ∈ ns, n < UInt64.size := by
  obtain ⟨numbers, wilds, hnumbers, -, -, -⟩ := h
  intro n hn
  obtain ⟨ds, -, hds⟩ := exists_of_forall₂ hnumbers.flip n hn
  exact hds.bound

theorem TagWrittenAs.wellFormed (h : TagWrittenAs ts cs) : ∀ t ∈ ts, t.WellFormed := by
  rcases h with ⟨rfl, -⟩ | ⟨ds, ⟨-, parts, hparts, -⟩, -⟩
  · exact List.forall_mem_nil _
  · intro t ht
    obtain ⟨es, -, hes⟩ := exists_of_forall₂ hparts.flip t ht
    exact ScriptFold.Tag.WrittenAs.wellFormed hes

end Version

end ScriptFold
