import ScriptFold.Lexeme

/-!
Numerals as tokens.

A numeral is a run of digits, perhaps with a fraction and a power of ten. Before a comma, a colon
or a closing mark it is one token, and its value is the number that its text denotes.
-/

namespace ScriptFold

def AllDigits (cs : List Char) : Prop := ∀ c ∈ cs, c.isDigit

def IsFraction (cs : List Char) : Prop := cs = [] ∨ ∃ ds, cs = '.' :: ds ∧ AllDigits ds

/-- The power of ten of a numeral, or nothing. -/
def IsPower (cs : List Char) : Prop :=
  cs = [] ∨ ∃ e sign ds, cs = e :: (sign ++ ds) ∧ (e = 'e' ∨ e = 'E') ∧
    (sign = [] ∨ sign = ['+'] ∨ sign = ['-']) ∧ ds ≠ [] ∧ AllDigits ds

/-- A decimal text without a sign that starts with a digit. -/
inductive IsNumeral : List Char → Prop
  | mk {int frac power : List Char} (hne : int ≠ []) (hint : AllDigits int)
      (hfrac : IsFraction frac) (hpower : IsPower power) : IsNumeral (int ++ (frac ++ power))

/-- The sign of a text. -/
def Number.signText (negative : Bool) : List Char := if negative then ['-'] else []

def numeralMarks : List Char := ['.', 'e', 'E', '+', '-']

def closers : List Char := [',', ':', ']', '\x7d', ')']

/-- What follows a value in a JSON text. -/
def Closes (rest : List Char) : Prop := ∃ c ∈ closers, ∃ cs, rest = c :: cs

theorem forall_of_all {p : Char → Prop} [DecidablePred p] {cs : List Char}
    (h : (cs.all fun c => decide (p c)) = true) : ∀ c ∈ cs, p c := by
  intro c hc
  exact of_decide_eq_true (List.all_eq_true.1 h c hc)

theorem not_isNamePart_of_mem_closers : ∀ c ∈ closers, isNamePart c = false :=
  forall_of_all (by decide +kernel)

theorem not_isNameStart_of_mem_closers : ∀ c ∈ closers, isNameStart c = false :=
  forall_of_all (by decide +kernel)

theorem closers_spec : ∀ c ∈ closers, c.isDigit = false ∧ c ≠ '_' ∧ c ≠ '.' ∧ c ≠ 'e' ∧ c ≠ 'E' ∧
    radix? c = none :=
  forall_of_all (by decide)

theorem ne_of_isDigit {c x : Char} (hc : c.isDigit) (hx : x.isDigit = false) : c ≠ x := by
  rintro rfl
  rw [hx] at hc
  cases hc

/-! ## Runs -/

/-- No digit run goes on here. -/
def StopsDigits (cs : List Char) : Prop := ∀ c ∈ cs.head?, c.isDigit = false ∧ c ≠ '_'

theorem digitRun_of_stops {cs : List Char} (h : StopsDigits cs) : digitRun cs = 0 := by
  unfold digitRun
  split
  · rfl
  · obtain ⟨-, hne⟩ := h '_' rfl
    exact absurd rfl hne
  · rename_i c rest _
    obtain ⟨hd, -⟩ := h c rfl
    simp [hd]

theorem digitRun_append {ds rest : List Char} (hds : AllDigits ds) (hrest : StopsDigits rest) :
    digitRun (ds ++ rest) = ds.length := by
  induction ds with
  | nil => exact digitRun_of_stops hrest
  | cons d ds ih =>
    have hd : d.isDigit := hds d List.mem_cons_self
    rw [List.cons_append, digitRun]
    · simp [hd, ih fun c hc => hds c (List.mem_cons_of_mem _ hc)]
    · intro d' rest' h
      exact absurd h (ne_of_isDigit hd (by decide))

theorem stopsDigits_of_closes {rest : List Char} (h : Closes rest) : StopsDigits rest := by
  obtain ⟨c, hc, cs, rfl⟩ := h
  rintro _ ⟨⟩
  exact ⟨(closers_spec c hc).1, (closers_spec c hc).2.1⟩

theorem stopsDigits_power {power rest : List Char} (hpower : IsPower power) (hrest : Closes rest) :
    StopsDigits (power ++ rest) := by
  rcases hpower with rfl | ⟨e, sign, ds, rfl, he, -⟩
  · exact stopsDigits_of_closes hrest
  · rintro _ ⟨⟩
    rcases he with rfl | rfl <;> decide

theorem stopsDigits_fraction {frac power rest : List Char} (hfrac : IsFraction frac)
    (hpower : IsPower power) (hrest : Closes rest) : StopsDigits (frac ++ (power ++ rest)) := by
  rcases hfrac with rfl | ⟨ds, rfl, -⟩
  · rw [List.nil_append]
    exact stopsDigits_power hpower hrest
  · rintro _ ⟨⟩
    decide

/-- A numeral without a fraction goes on with a power of ten or ends. -/
theorem ne_point_of_power {power rest : List Char} (hpower : IsPower power) (hrest : Closes rest) :
    (power ++ rest).head? ≠ some '.' := by
  rcases hpower with rfl | ⟨e, sign, ds, rfl, he, -⟩
  · obtain ⟨c, hc, cs, rfl⟩ := hrest
    rintro ⟨⟩
    exact (closers_spec '.' hc).2.2.1 rfl
  · rcases he with rfl | rfl <;> rintro ⟨⟩

theorem exponentRun_power {power rest : List Char} (hpower : IsPower power) (hrest : Closes rest) :
    exponentRun (power ++ rest) = power.length := by
  rcases hpower with rfl | ⟨e, sign, ds, rfl, he, hsign, hne, hds⟩
  · obtain ⟨c, hc, cs, rfl⟩ := hrest
    obtain ⟨-, -, -, he, hE, -⟩ := closers_spec c hc
    simp [exponentRun, he, hE]
  · have hrun := digitRun_append hds (stopsDigits_of_closes hrest)
    obtain ⟨d, hhead, hd⟩ : ∃ d, (ds ++ rest).head? = some d ∧ d.isDigit := by
      obtain ⟨d, ds', rfl⟩ := List.exists_cons_of_ne_nil hne
      exact ⟨d, rfl, hds d List.mem_cons_self⟩
    have hplus : d ≠ '+' := ne_of_isDigit hd (by decide)
    have hminus : d ≠ '-' := ne_of_isDigit hd (by decide)
    have hcount : (if (sign ++ (ds ++ rest)).head? = some '+' ∨
        (sign ++ (ds ++ rest)).head? = some '-' then 1 else 0) = sign.length := by
      rcases hsign with rfl | rfl | rfl <;> simp [hhead, hplus, hminus]
    have hdrop : (sign ++ (ds ++ rest)).drop sign.length = ds ++ rest := List.drop_left
    rw [List.cons_append, List.append_assoc, exponentRun]
    simp only [hcount, hdrop, hrun]
    rw [if_pos ⟨he, by rw [hhead]; exact hd⟩, List.length_cons, List.length_append,
      Nat.add_comm ds.length]

theorem fractionRun_fraction {frac power rest : List Char} (hfrac : IsFraction frac)
    (hpower : IsPower power) (hrest : Closes rest) :
    fractionRun (frac ++ (power ++ rest)) = frac.length := by
  rcases hfrac with rfl | ⟨ds, rfl, hds⟩
  · have hpoint := ne_point_of_power hpower hrest
    unfold fractionRun
    split
    · rename_i h
      rw [List.nil_append] at h
      rw [h] at hpoint
      exact absurd rfl hpoint
    · rfl
  · simp only [List.cons_append, fractionRun, List.length_cons]
    rw [digitRun_append hds (stopsDigits_power hpower hrest)]

/-! ## Tokens -/

theorem char_of_mem_numeral {cs : List Char} (h : IsNumeral cs) :
    ∀ c ∈ cs, c.isDigit ∨ c ∈ numeralMarks := by
  obtain ⟨-, hint, hfrac, hpower⟩ := h
  intro c hc
  rcases List.mem_append.1 hc with hc | hc
  · exact .inl (hint c hc)
  rcases List.mem_append.1 hc with hc | hc
  · rcases hfrac with rfl | ⟨ds, rfl, hds⟩
    · cases hc
    · rcases List.mem_cons.1 hc with rfl | hc
      · exact .inr (by decide)
      · exact .inl (hds c hc)
  · rcases hpower with rfl | ⟨e, sign, ds, rfl, he, hsign, -, hds⟩
    · cases hc
    · rcases List.mem_cons.1 hc with rfl | hc
      · rcases he with rfl | rfl <;> exact .inr (by decide)
      rcases List.mem_append.1 hc with hc | hc
      · rcases hsign with rfl | rfl | rfl
        · cases hc
        · exact .inr (by rw [List.mem_singleton.1 hc]; decide)
        · exact .inr (by rw [List.mem_singleton.1 hc]; decide)
      · exact .inl (hds c hc)

theorem IsNumeral.ne_nil {cs : List Char} (h : IsNumeral cs) : cs ≠ [] := by
  obtain ⟨hne, -, -, -⟩ := h
  intro hnil
  exact hne (List.append_eq_nil_iff.1 hnil).1

theorem isDigit_head_of_numeral {c : Char} {cs : List Char} (h : IsNumeral (c :: cs)) :
    c.isDigit := by
  generalize htext : c :: cs = text at h
  obtain ⟨hne, hint, -, -⟩ := h
  obtain ⟨d, int, rfl⟩ := List.exists_cons_of_ne_nil hne
  obtain ⟨rfl, -⟩ := List.cons.inj htext
  exact hint c List.mem_cons_self

theorem Number.readSign_numeral (negative : Bool) {cs : List Char} (h : IsNumeral cs) :
    readSign (signText negative ++ cs) = (negative, cs) := by
  cases negative with
  | true => rfl
  | false =>
    obtain ⟨c, cs, rfl⟩ := List.exists_cons_of_ne_nil h.ne_nil
    have hc := isDigit_head_of_numeral h
    have hminus : c ≠ '-' := ne_of_isDigit hc (by decide)
    have hplus : c ≠ '+' := ne_of_isDigit hc (by decide)
    simp [signText, readSign, hminus, hplus]

theorem withoutSeparators_numeral {cs : List Char} (h : IsNumeral cs) :
    withoutSeparators cs = cs := by
  unfold withoutSeparators
  rw [List.filter_eq_self]
  intro c hc
  have hne : c ≠ '_' := by
    rcases char_of_mem_numeral h c hc with hd | hc
    · exact ne_of_isDigit hd (by decide)
    · exact forall_of_all (p := (· ≠ '_')) (by decide) c hc
  simpa using hne

/-- The decimal whose digits, fraction and exponent are the runs of these lengths. -/
theorem scanDecimal_of_runs {c : Char} {int frac power after : List Char}
    (hint : digitRun (int ++ (frac ++ (power ++ after))) = int.length)
    (hfrac : (if c = '.' then 0 else fractionRun (frac ++ (power ++ after))) = frac.length)
    (hpower : exponentRun (power ++ after) = power.length) :
    scanDecimal c (int ++ (frac ++ power) ++ after) =
      finishNumber (c :: (int ++ (frac ++ power) ++ after)) (int ++ (frac ++ power)).length
        ((Number.readUnsigned (withoutSeparators (c :: (int ++ (frac ++ power))))).getD 0.0)
        .identifierAfterNumber (after.head?.any isNameStart) := by
  have htext : int ++ (frac ++ power) ++ after = int ++ (frac ++ (power ++ after)) := by simp
  have hdrop₁ : (int ++ (frac ++ (power ++ after))).drop int.length = frac ++ (power ++ after) :=
    List.drop_left
  have hdrop₂ : (int ++ (frac ++ (power ++ after))).drop (int.length + frac.length) =
      power ++ after := by
    rw [← List.drop_drop, hdrop₁, List.drop_left]
  have hcount : (if c = '.' then int.length
      else int.length + fractionRun (frac ++ (power ++ after))) = int.length + frac.length := by
    rw [← hfrac]
    split <;> rfl
  have hlength : int.length + frac.length + power.length = (int ++ (frac ++ power)).length := by
    simp [Nat.add_assoc]
  unfold scanDecimal
  simp only [htext, hint, hdrop₁, hcount, hdrop₂, hpower, hlength]
  rw [← htext, List.take_left, List.drop_left]

theorem scanDecimal_numeral {c : Char} {cs rest : List Char} (h : IsNumeral (c :: cs))
    (hrest : Closes rest) :
    scanDecimal c (cs ++ rest) =
      ⟨some (.number ((Number.readUnsigned (c :: cs)).getD 0.0)), cs.length, []⟩ := by
  have hsep := withoutSeparators_numeral h
  generalize htext : c :: cs = text at h hsep
  obtain ⟨hne, hint, hfrac, hpower⟩ := h
  rename_i int frac power
  obtain ⟨d, int, rfl⟩ := List.exists_cons_of_ne_nil hne
  obtain ⟨rfl, hcs⟩ := List.cons.inj htext
  replace hcs : cs = int ++ (frac ++ power) := hcs
  subst hcs
  have hint' : AllDigits int := fun x hx => hint x (List.mem_cons_of_mem _ hx)
  have hpoint : c ≠ '.' := ne_of_isDigit (hint c List.mem_cons_self) (by decide)
  have hstart : (rest.head?.any isNameStart) = false := by
    obtain ⟨x, hx, cs, rfl⟩ := hrest
    exact not_isNameStart_of_mem_closers x hx
  have hfraction : (if c = '.' then 0 else fractionRun (frac ++ (power ++ rest))) = frac.length := by
    rw [if_neg hpoint, fractionRun_fraction hfrac hpower hrest]
  rw [scanDecimal_of_runs (digitRun_append hint' (stopsDigits_fraction hfrac hpower hrest))
    hfraction (exponentRun_power hpower hrest), hstart]
  rw [List.cons_append] at hsep ⊢
  rw [hsep]
  rfl

theorem digit_bounds {c : Char} (h : c.isDigit) : 48 ≤ c.toNat ∧ c.toNat ≤ 57 := by
  simp only [Char.isDigit, Bool.and_eq_true, decide_eq_true_eq] at h
  exact h

theorem not_isBlank_of_isDigit {c : Char} (h : c.isDigit) : Text.isBlank c = false := by
  have hbounds := digit_bounds h
  rw [Bool.eq_false_iff, Text.isBlank, ne_eq, Text.inRanges_eq_true_iff]
  rintro ⟨r, hr, hlow, hhigh⟩
  have hranges : ∀ r ∈ Text.blankRanges, r.2 < 48 ∨ 57 < r.1 := by decide
  rcases hranges r hr with h | h <;> omega

theorem radix?_of_isDigit {c : Char} (h : c.isDigit) : radix? c = none := by
  unfold radix?
  split
  all_goals first
    | rfl
    | exact absurd h (by decide)

theorem scan_numeral {c : Char} {cs rest : List Char} (h : IsNumeral (c :: cs))
    (hrest : Closes rest) :
    scan c (cs ++ rest) =
      ⟨some (.number ((Number.readUnsigned (c :: cs)).getD 0.0)), cs.length, []⟩ := by
  rw [← scanDecimal_numeral h hrest]
  have hd := isDigit_head_of_numeral h
  have hradix : (cs ++ rest).head?.bind radix? = none := by
    cases cs with
    | nil =>
      obtain ⟨x, hx, cs, rfl⟩ := hrest
      exact (closers_spec x hx).2.2.2.2.2
    | cons x cs =>
      rcases char_of_mem_numeral h x (by simp) with hx | hx
      · exact radix?_of_isDigit hx
      · exact forall_of_all (p := (radix? · = none)) (by decide) x hx
  have hslash : c ≠ '/' := ne_of_isDigit hd (by decide)
  have hquote : c ≠ '"' := ne_of_isDigit hd (by decide)
  have hsingle : c ≠ '\'' := ne_of_isDigit hd (by decide)
  unfold scan scanNumber
  rw [hradix]
  simp [not_isBlank_of_isDigit hd, hslash, hquote, hsingle, hd]

end ScriptFold
