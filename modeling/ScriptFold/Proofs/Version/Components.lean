import ScriptFold.Proofs.Results
import ScriptFold.Proofs.Version.Caret

/-!
Ranges by components.

The bounds of an open pattern, of a tilde and of a caret are floors, which lie before all versions
with their numbers, pre-releases included. So a bound is a cut between numbers, and what lies
between two bounds is said by numbers alone: no pre-release of the first version after a range lies
in the range.
-/

namespace ScriptFold.Version

open Text (IsWord)

variable {o : Overflow} {a b c : Nat} {ts us : List Tag} {v w : Version} {text : String}
  {p : Pattern}

/-! ## Words of patterns -/

/-- The text is a word that is read as the pattern, and it does not begin with an equals sign. -/
structure Pattern.WordOf (p : Pattern) (text : String) : Prop where
  isWord : IsWord text.toList
  head_ne : text.toList.head? ≠ some '='
  read : Pattern.ofText? text.toList = some p

theorem Pattern.wordOf_plain {ns : List Nat} {core tag : List Char}
    (hcore : NumbersWrittenAs ns core) (htag : TagWrittenAs ts tag)
    (hp : Pattern.ofNumbers? ts ns = some p) (hne : core ≠ [])
    (htext : text.toList = core ++ tag) : p.WordOf text := by
  have hchars : ∀ c ∈ core ++ tag, IsVersionChar c :=
    List.forall_mem_append.2 ⟨hcore.isVersionChar, htag.isVersionChar⟩
  constructor
  · rw [htext]
    exact IsVersionChar.isWord (by simp [hne]) hchars
  · intro hhead
    rw [htext] at hhead
    have hequals : IsVersionChar '=' := hchars '=' (List.mem_of_head? hhead)
    exact absurd hequals (by decide)
  · rw [htext]
    exact Pattern.ofText?_eq_some_iff.2 (Pattern.writtenAs_plain hcore htag hp)

theorem Pattern.wordOf_major (ha : a < UInt64.size) :
    (Pattern.major a).WordOf (toString a) := by
  have hcore : NumbersWrittenAs [a] (numbersText [a]) :=
    numbersWrittenAs_numbersText (by simp) (by simpa using ha)
  have htext : (toString a).toList = numbersText [a] ++ [] := by
    simp [numbersText, List.intercalate_singleton]
  exact wordOf_plain hcore (.inl ⟨rfl, rfl⟩) rfl (numbersText_ne_nil (by simp)) htext

theorem Pattern.wordOf_minor (ha : a < UInt64.size) (hb : b < UInt64.size) :
    (Pattern.minor a b).WordOf (toString a ++ "." ++ toString b) := by
  have hcore : NumbersWrittenAs [a, b] (numbersText [a, b]) :=
    numbersWrittenAs_numbersText (by simp) (by simp [ha, hb])
  have htext : (toString a ++ "." ++ toString b).toList = numbersText [a, b] ++ [] := by
    simp [numbersText, List.intercalate_cons_cons]
  exact wordOf_plain hcore (.inl ⟨rfl, rfl⟩) rfl (numbersText_ne_nil (by simp)) htext

theorem Pattern.wordOf_full (hw : w.WellFormed) : (Pattern.full w).WordOf w.text :=
  wordOf_plain hw.numbers (tagWrittenAs_tagText hw.tags) rfl (numbersText_ne_nil (by simp))
    (toList_text w)

namespace Pattern.WordOf

theorem isStart (h : p.WordOf text) : ∃ d ds, text.toList = d :: ds ∧ isStart d := by
  obtain ⟨d, ds, hds⟩ := List.exists_cons_of_ne_nil h.isWord.ne_nil
  have hunbroken := h.isWord.unbroken
  have hread := h.read
  rw [hds] at hunbroken hread
  exact ⟨d, ds, hds, isStart_of_ofText? hunbroken hread⟩

theorem admits_eq (h : p.WordOf text) : Range.admits o text v = v.meets (p.fitting o) := by
  have hnone := not_operator_of_pattern h.isWord.unbroken h.head_ne h.read
  exact Range.admits_term [] (by simp) rfl h.isWord (isOperator_of_pattern hnone)
    (splitOperator_of_pattern hnone) h.read v

theorem admits_tilde (h : p.WordOf text) :
    Range.admits o ("~" ++ text) v = v.meets (p.tilde o) := by
  -- The word does not make the tilde another operator.
  obtain ⟨d, ds, hds, hd⟩ := h.isStart
  have hne : '>' ≠ d := by
    rintro rfl
    cases hd
  have hop : isOperator ('~' :: text.toList) = false := by
    simp [hds, isOperator, operators, hne]
  have hsplit : splitOperator ('~' :: text.toList) = (.tilde, text.toList) := by
    simp [hds, splitOperator, operators, Text.dropStart?, hne]
  exact Range.admits_term ['~'] (by simp) (by decide) h.isWord hop hsplit h.read v

theorem admits_caret (h : p.WordOf text) :
    Range.admits o ("^" ++ text) v = v.meets (p.caret o) := by
  have hsplit : splitOperator ('^' :: text.toList) = (.caret, text.toList) := rfl
  exact Range.admits_term ['^'] (by simp) (by decide) h.isWord (isOperator_caret h.isWord.ne_nil)
    hsplit h.read v

end Pattern.WordOf

/-! ## Bounds -/

/-- What does not come before a version does not come before the floor of its numbers. -/
theorem compare_floor_ne_lt (h : v.compare w ≠ .lt) :
    v.compare (floor w.major w.minor w.patch) ≠ .lt := by
  intro hlt
  rw [compare_floor_eq_lt_iff] at hlt
  refine h (compare_eq_lt_iff.2 ?_)
  rcases hlt with hmajor | ⟨hmajor, hminor | ⟨hminor, hpatch⟩⟩
  · exact .inl hmajor
  · exact .inr ⟨hmajor, .inl hminor⟩
  · exact .inr ⟨hmajor, .inr ⟨hminor, .inl hpatch⟩⟩

theorem compare_nextMajor_iff (h : v.compare w ≠ .lt) :
    v.compare (floor (w.major + 1) 0 0) = .lt ↔ v.major = w.major := by
  have hnumbers := compare_floor_ne_lt h
  rw [ne_eq, compare_floor_eq_lt_iff] at hnumbers
  rw [compare_floor_eq_lt_iff]
  omega

theorem compare_nextMinor_iff (h : v.compare w ≠ .lt) :
    v.compare (floor w.major (w.minor + 1) 0) = .lt ↔ v.major = w.major ∧ v.minor = w.minor := by
  have hnumbers := compare_floor_ne_lt h
  rw [ne_eq, compare_floor_eq_lt_iff] at hnumbers
  rw [compare_floor_eq_lt_iff]
  omega

/-! ## Components -/

theorem meets_fitting_major (ha : a + 1 < UInt64.size) :
    v.meets ((Pattern.major a).fitting o) ↔ v.major = a := by
  rw [Pattern.fitting, o.next_of_lt ha]
  refine (all_between_iff ..).trans ?_
  rw [ne_eq, compare_floor_eq_lt_iff, compare_floor_eq_lt_iff]
  omega

theorem meets_fitting_minor (hb : b + 1 < UInt64.size) :
    v.meets ((Pattern.minor a b).fitting o) ↔ v.major = a ∧ v.minor = b := by
  rw [Pattern.fitting, o.next_of_lt hb]
  refine (all_between_iff ..).trans ?_
  rw [ne_eq, compare_floor_eq_lt_iff, compare_floor_eq_lt_iff]
  omega

theorem meets_tilde_major (ha : a + 1 < UInt64.size) : v.meets ((Pattern.major a).tilde o) ↔
    v.compare ⟨a, 0, 0, []⟩ ≠ .lt ∧ v.major = a := by
  rw [Pattern.tilde, o.next_of_lt ha]
  exact (all_between_iff ..).trans (and_congr_right compare_nextMajor_iff)

theorem meets_tilde_minor (hb : b + 1 < UInt64.size) : v.meets ((Pattern.minor a b).tilde o) ↔
    v.compare ⟨a, b, 0, []⟩ ≠ .lt ∧ v.major = a ∧ v.minor = b := by
  rw [Pattern.tilde, o.next_of_lt hb]
  exact (all_between_iff ..).trans (and_congr_right compare_nextMinor_iff)

theorem meets_tilde_full (hb : w.minor + 1 < UInt64.size) : v.meets ((Pattern.full w).tilde o) ↔
    v.compare w ≠ .lt ∧ v.major = w.major ∧ v.minor = w.minor := by
  rw [Pattern.tilde, o.next_of_lt hb]
  exact (all_between_iff ..).trans (and_congr_right compare_nextMinor_iff)

theorem meets_caret_major (ha : a + 1 < UInt64.size) :
    v.meets ((Pattern.major a).caret o) ↔ v.major = a := by
  have hcaret : (Pattern.major a).caret o = (Pattern.major a).fitting o := by
    rw [Pattern.caret, Pattern.caretEnd, Pattern.fitting, o.next_of_lt ha]
    · rfl
    · exact Pattern.noConfusion
  rw [hcaret, meets_fitting_major ha]

theorem meets_caret_minor_zero (hb : b + 1 < UInt64.size) :
    v.meets ((Pattern.minor 0 b).caret o) ↔ v.major = 0 ∧ v.minor = b := by
  have hcaret : (Pattern.minor 0 b).caret o = (Pattern.minor 0 b).fitting o := by
    rw [Pattern.caret, Pattern.caretEnd, Pattern.fitting, o.next_of_lt hb]
    · rfl
    · exact Pattern.noConfusion
  rw [hcaret, meets_fitting_minor hb]

theorem meets_caret_minor (hpos : 0 < a) (ha : a + 1 < UInt64.size) :
    v.meets ((Pattern.minor a b).caret o) ↔ v.major = a ∧ b ≤ v.minor := by
  obtain ⟨a, rfl⟩ := Nat.exists_eq_add_of_lt hpos
  rw [Nat.zero_add] at ha ⊢
  rw [Pattern.caret, Pattern.caretEnd, o.next_of_lt ha]
  · refine (all_between_iff ..).trans ?_
    rw [Pattern.caretStart, Pattern.lower, ne_eq, compare_floor_eq_lt_iff, compare_floor_eq_lt_iff]
    · omega
    · exact fun _ _ _ => Pattern.noConfusion
  · exact Pattern.noConfusion

/-- Before a pre-release a caret starts with the pre-release itself. -/
theorem meets_caret_prerelease (htags : w.tags ≠ [])
    (hw : ∀ n ∈ (Pattern.full w).numbers, n + 1 < UInt64.size) :
    v.meets ((Pattern.full w).caret o) ↔ v.compare w ≠ .lt ∧ Keeps w v := by
  have hstart : (Pattern.full w).caretStart = w := by
    obtain ⟨a, b, c, ts⟩ := w
    cases ts with
    | nil => exact absurd rfl htags
    | cons t ts => rfl
  obtain ⟨u, hend, hkeeps⟩ := exists_caretEnd o hw
  rw [Pattern.caret, hend, hstart]
  · exact (all_between_iff u w v).trans
      (and_congr_right fun h => hkeeps v (compare_floor_ne_lt h))
  · exact Pattern.noConfusion

theorem exists_caretEnd_minor (ha : a + 1 < UInt64.size) (hb : b + 1 < UInt64.size) :
    ∃ u, (Pattern.minor a b).caretEnd o = .ok u := by
  cases a with
  | zero => exact ⟨_, by rw [Pattern.caretEnd, o.next_of_lt hb]; rfl⟩
  | succ a => exact ⟨_, by rw [Pattern.caretEnd, o.next_of_lt ha]; rfl⟩

/-- The end of a caret comes before all versions with its numbers. -/
theorem caretEnd_eq_floor (h : p.caretEnd o = .ok w) : ∃ a b c, w = floor a b c := by
  fun_cases Pattern.caretEnd o p
  case case1 => cases h; exact ⟨_, _, _, rfl⟩
  all_goals
    obtain ⟨n, -, rfl⟩ := map_eq_ok.1 h
    exact ⟨_, _, _, rfl⟩

theorem not_meets_caretEnd (hp : p ≠ Pattern.any) (h : p.caretEnd o = .ok w) :
    ¬ ({ w with tags := us } : Version).meets (p.caret o) := by
  obtain ⟨a, b, c, rfl⟩ := caretEnd_eq_floor h
  rw [Pattern.caret.eq_2 o p hp, h]
  refine fun hmeets => absurd ((all_between_iff ..).1 hmeets).2 ?_
  rw [compare_floor_eq_lt_iff]
  simp [floor]

/-- **Ranges by components.** Let `a`, `b` and `c` be numbers below the largest one of 64 bits and
`ts` the parts of a tag, perhaps none. The texts `a`, `a.b` and `a.b.c-ts` are words that write
patterns. A word that writes one of these patterns, with a tilde or a caret before it or without,
admits exactly the versions with the stated numbers, which with a tilde and before a pre-release
also do not come before the version that the pattern begins with. So neither the first release after
a range nor any of its pre-releases lies in the range. -/
theorem Range.admits_components (ha : a + 1 < UInt64.size) (hb : b + 1 < UInt64.size)
    (hc : c + 1 < UInt64.size) (hts : ∀ t ∈ ts, t.WellFormed) (o : Overflow) :
    let w : Version := ⟨a, b, c, ts⟩
    ((Pattern.major a).WordOf (toString a) ∧
      (Pattern.minor a b).WordOf (toString a ++ "." ++ toString b) ∧
      (Pattern.full w).WordOf w.text) ∧
    (∀ text, (Pattern.major a).WordOf text →
      (∀ v, (admits o text v ↔ v.major = a) ∧
        (admits o ("~" ++ text) v ↔ v.compare ⟨a, 0, 0, []⟩ ≠ .lt ∧ v.major = a) ∧
        (admits o ("^" ++ text) v ↔ v.major = a)) ∧
      ∀ us, ¬ admits o text ⟨a + 1, 0, 0, us⟩ ∧ ¬ admits o ("~" ++ text) ⟨a + 1, 0, 0, us⟩ ∧
        ¬ admits o ("^" ++ text) ⟨a + 1, 0, 0, us⟩) ∧
    (∀ text, (Pattern.minor a b).WordOf text →
      (∀ v, (admits o text v ↔ v.major = a ∧ v.minor = b) ∧
        (admits o ("~" ++ text) v ↔
          v.compare ⟨a, b, 0, []⟩ ≠ .lt ∧ v.major = a ∧ v.minor = b) ∧
        (0 < a → (admits o ("^" ++ text) v ↔ v.major = a ∧ b ≤ v.minor)) ∧
        (a = 0 → (admits o ("^" ++ text) v ↔ v.major = 0 ∧ v.minor = b))) ∧
      ∃ u, (Pattern.minor a b).caretEnd o = .ok u ∧
        ∀ us, ¬ admits o text ⟨a, b + 1, 0, us⟩ ∧ ¬ admits o ("~" ++ text) ⟨a, b + 1, 0, us⟩ ∧
          ¬ admits o ("^" ++ text) { u with tags := us }) ∧
    (∀ text, (Pattern.full w).WordOf text →
      (∀ v, (admits o ("~" ++ text) v ↔ v.compare w ≠ .lt ∧ v.major = a ∧ v.minor = b) ∧
        (ts ≠ [] → (admits o ("^" ++ text) v ↔ v.compare w ≠ .lt ∧ Keeps w v))) ∧
      ∃ u, (Pattern.full w).caretEnd o = .ok u ∧
        ∀ us, ¬ admits o ("~" ++ text) ⟨a, b + 1, 0, us⟩ ∧
          (ts ≠ [] → ¬ admits o ("^" ++ text) { u with tags := us })) := by
  intro w
  have ha' : a < UInt64.size := Nat.lt_of_succ_lt ha
  have hb' : b < UInt64.size := Nat.lt_of_succ_lt hb
  have hw : w.WellFormed := ⟨ha', hb', Nat.lt_of_succ_lt hc, hts⟩
  have hnumbers : ∀ n ∈ (Pattern.full w).numbers, n + 1 < UInt64.size := by
    simp [w, Pattern.numbers, ha, hb, hc]
  refine ⟨⟨Pattern.wordOf_major ha', Pattern.wordOf_minor ha' hb', Pattern.wordOf_full hw⟩,
    fun text h => ⟨fun v => ?_, fun us => ?_⟩, fun text h => ⟨fun v => ?_, ?_⟩,
    fun text h => ⟨fun v => ?_, ?_⟩⟩
  · rw [h.admits_eq, h.admits_tilde, h.admits_caret]
    exact ⟨meets_fitting_major ha, meets_tilde_major ha, meets_caret_major ha⟩
  · rw [h.admits_eq, h.admits_tilde, h.admits_caret, meets_fitting_major ha, meets_tilde_major ha,
      meets_caret_major ha]
    simp
  · rw [h.admits_eq, h.admits_tilde, h.admits_caret]
    refine ⟨meets_fitting_minor hb, meets_tilde_minor hb, fun hpos => meets_caret_minor hpos ha, ?_⟩
    rintro rfl
    exact meets_caret_minor_zero hb
  · obtain ⟨u, hend⟩ := exists_caretEnd_minor (o := o) ha hb
    refine ⟨u, hend, fun us => ?_⟩
    rw [h.admits_eq, h.admits_tilde, h.admits_caret, meets_fitting_minor hb, meets_tilde_minor hb]
    exact ⟨by simp, by simp, not_meets_caretEnd Pattern.noConfusion hend⟩
  · rw [h.admits_tilde, h.admits_caret]
    exact ⟨meets_tilde_full hb, fun hne => meets_caret_prerelease (w := w) hne hnumbers⟩
  · obtain ⟨u, hend, -⟩ := exists_caretEnd o hnumbers
    refine ⟨u, hend, fun us => ?_⟩
    rw [h.admits_tilde, h.admits_caret, meets_tilde_full hb]
    exact ⟨by simp [w], fun _ => not_meets_caretEnd Pattern.noConfusion hend⟩

/-- The range `^1.2.3-beta` admits `1.2.3-gamma`, and `1.x` all versions with the major number 1. No
range admits a pre-release of the first release after it. -/
theorem Range.admits_components_beta :
    let w : Version := ⟨1, 2, 3, [.alpha "beta"]⟩
    (1 + 1 < UInt64.size ∧ 2 + 1 < UInt64.size ∧ 3 + 1 < UInt64.size ∧
      ∀ t ∈ w.tags, t.WellFormed) ∧
    admits .stops "1.x" ⟨1, 9, 0, [.numeric 0]⟩ ∧ ¬ admits .stops "1.x" ⟨2, 0, 0, [.numeric 0]⟩ ∧
    ¬ admits .stops "~1.2" ⟨1, 3, 0, [.numeric 0]⟩ ∧
    admits .stops "^1.2.3-beta" { w with tags := [.alpha "gamma"] } ∧
    ¬ admits .stops "^1.2.3-beta" { w with tags := [.alpha "alpha"] } ∧
    ¬ admits .stops "^1.2.3-beta" ⟨2, 0, 0, [.numeric 0]⟩ := by
  intro w
  have hbeta : ∀ t ∈ w.tags, t.WellFormed :=
    List.forall_mem_singleton.2 ⟨by simp, 'b', by decide, rfl⟩
  obtain ⟨⟨-, hminor, hfull⟩, hmajors, hminors, hfulls⟩ :=
    admits_components (a := 1) (b := 2) (c := 3) (by decide) (by decide) (by decide) hbeta .stops
  have hx : (Pattern.major 1).WordOf "1.x" := ⟨by decide, by decide, by decide⟩
  obtain ⟨hadmits, hnone⟩ := hmajors "1.x" hx
  obtain ⟨-, u, hend, hnone'⟩ := hminors "1.2" hminor
  obtain ⟨hadmits'', u', hend', hnone''⟩ := hfulls w.text hfull
  have htext : w.text = "1.2.3-beta" := by decide +kernel
  rw [htext] at hadmits'' hnone''
  obtain rfl : floor 2 0 0 = u' := Except.ok.inj hend'
  have hbounds : 1 + 1 < UInt64.size ∧ 2 + 1 < UInt64.size ∧ 3 + 1 < UInt64.size := by decide
  have hgamma : admits .stops "^1.2.3-beta" { w with tags := [.alpha "gamma"] } :=
    ((hadmits'' _).2 (by decide)).2 (by decide +kernel)
  have halpha : ¬ admits .stops "^1.2.3-beta" { w with tags := [.alpha "alpha"] } := fun h =>
    absurd (((hadmits'' _).2 (by decide)).1 h) (by decide +kernel)
  exact ⟨⟨hbounds.1, hbounds.2.1, hbounds.2.2, hbeta⟩, (hadmits _).1.2 rfl, (hnone _).1,
    (hnone' _).2.1, hgamma, halpha, (hnone'' _).2 (by decide)⟩

end ScriptFold.Version
