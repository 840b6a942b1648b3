import ScriptFold.Proofs.Results
import ScriptFold.Proofs.Version.Comparators

/-!
Ranges compose.

A double bar between blanks joins the alternatives of two ranges, and a blank joins the terms of two
ranges that have one alternative each. What one side leaves open cannot reach over to the other
side: a blank stands between their bars, an operator at the end of a range has no version, and a
hyphen is neither a version nor does it follow an operator.
-/

namespace ScriptFold

namespace Text

variable {c d : Char} {cs ds first last : List Char} {front rest : List (List Char)}

theorem splitDoubleBar_cons (hd : ¬ ['|', '|'] <+: d :: ds)
    (hds : splitDoubleBar ds = first :: rest) :
    splitDoubleBar (d :: ds) = (d :: first) :: rest := by
  have hbars : ∀ ds', d = '|' → ds = '|' :: ds' → False := by
    rintro ds' rfl rfl
    exact hd (List.prefix_append ['|', '|'] ds')
  rw [splitDoubleBar.eq_3 d ds hbars, hds]

/-- A character that is not a bar belongs to the parts on both of its sides. -/
theorem splitDoubleBar_append (hc : c ≠ '|') (hcs : splitDoubleBar cs = front ++ [last])
    (hds : splitDoubleBar ds = first :: rest) :
    splitDoubleBar (cs ++ c :: ds) = front ++ (last ++ c :: first) :: rest := by
  have hbar : ¬ ['|', '|'] <+: c :: ds := fun h => hc (List.cons_prefix_cons.1 h).1.symm
  fun_induction splitDoubleBar cs generalizing front last with
  | case1 =>
    obtain ⟨rfl, rfl⟩ : front = [] ∧ last = [] := by
      simpa [eq_comm] using List.append_eq_singleton_iff.1 hcs.symm
    exact splitDoubleBar_cons hbar hds
  | case2 cs ih =>
    -- The part before the bars is not the last one.
    cases front with
    | nil => exact absurd (List.cons.inj hcs).2 (splitDoubleBar_ne_nil cs)
    | cons part front =>
      obtain ⟨rfl, hrest⟩ := List.cons.inj hcs
      exact congrArg ([] :: ·) (ih hrest)
  | case3 d cs _ hnil => exact absurd hnil (splitDoubleBar_ne_nil cs)
  | case4 d cs hd part parts hparts ih =>
    have hd' : ¬ ['|', '|'] <+: d :: (cs ++ c :: ds) := by
      intro h
      obtain ⟨rfl, hcs⟩ := List.cons_prefix_cons.1 h
      cases cs with
      | nil => exact hc (List.cons_prefix_cons.1 hcs).1.symm
      | cons d' cs =>
        obtain ⟨rfl, -⟩ := List.cons_prefix_cons.1 hcs
        exact hd cs rfl rfl
    cases front with
    | nil =>
      obtain ⟨rfl, rfl⟩ := List.cons.inj hcs
      have hsplit : splitDoubleBar cs = [] ++ [part] := hparts
      exact splitDoubleBar_cons hd' (ih hsplit)
    | cons _ front =>
      obtain ⟨rfl, rfl⟩ := List.cons.inj hcs
      have hsplit : splitDoubleBar cs = (part :: front) ++ [last] := hparts
      exact splitDoubleBar_cons hd' (ih hsplit)

def wordLists (cs : List Char) : List (List (List Char)) := (splitDoubleBar cs).map words

/-- A double bar between blanks ends a list of words, and nothing else joins the lists on its
sides. -/
theorem wordLists_append (cs ds : List Char) :
    wordLists (cs ++ ' ' :: '|' :: '|' :: ' ' :: ds) = wordLists cs ++ wordLists ds := by
  have hblank : isBlank ' ' = true := by decide
  obtain ⟨front, last, hcs⟩ := List.eq_nil_or_concat' (splitDoubleBar cs) |>.resolve_left
    (splitDoubleBar_ne_nil cs)
  obtain ⟨first, rest, hds⟩ := List.exists_cons_of_ne_nil (splitDoubleBar_ne_nil ds)
  have hempty : splitDoubleBar [] = [] ++ [[]] := rfl
  have hright : splitDoubleBar (' ' :: ds) = (' ' :: first) :: rest :=
    splitDoubleBar_append (by decide) hempty hds
  have hbars : splitDoubleBar ('|' :: '|' :: ' ' :: ds) = [] :: (' ' :: first) :: rest := by
    rw [splitDoubleBar, hright]
  have hlast : words (last ++ [' ']) = words last := by
    rw [words_append_blank hblank, words_nil, List.append_nil]
  have hfirst : words (' ' :: first) = words first := words_append_blank hblank [] first
  unfold wordLists
  rw [splitDoubleBar_append (by decide) hcs hbars, hcs, hds]
  simp only [List.map_append, List.map_cons, List.map_nil, hlast, hfirst, List.append_assoc,
    List.singleton_append]

end Text

namespace Version

variable {o : Overflow}

/-! ## Alternatives -/

theorem Range.ofText_eq (text : String) :
    Range.ofText o text = (Text.wordLists text.toList).mapM (ofWords o) := by
  rw [ofText, Text.wordLists, List.mapM_map]
  rfl

/-- The alternatives of a range with a double bar are those of its sides. -/
theorem Range.ofText_alternatives (a b : String) : Range.ofText o (a ++ " || " ++ b) =
    do return (← Range.ofText o a) ++ (← Range.ofText o b) := by
  have htext : (a ++ " || " ++ b).toList = a.toList ++ ' ' :: '|' :: '|' :: ' ' :: b.toList := by
    simp
  simp only [ofText_eq, htext, Text.wordLists_append, List.mapM_append]

/-! ## Terms -/

/-- Two words with a hyphen between them. -/
def isHyphenated : List (List Char) → Bool
  | [_, ['-'], _] => true
  | _ => false

/-- The text writes two patterns with a hyphen between them. -/
def Range.isHyphenated (text : String) : Bool := Version.isHyphenated (Text.words text.toList)

variable {ws vs terms : List (List Char)} {w : List Char}

theorem ofWords_of_not_isHyphenated (h : isHyphenated ws = false) :
    ofWords o ws = do
      let terms ← orMalformed (joinOperators ws)
      return (← terms.mapM (ofTerm o)).flatten := by
  unfold ofWords
  split
  · cases h
  · rfl

theorem joinOperators_word (hw : isOperator w = false) (ws : List (List Char)) :
    joinOperators (w :: ws) = (joinOperators ws).map (w :: ·) := by
  cases ws <;> simp [joinOperators, hw]

theorem joinOperators_operator (hw : isOperator w = true) (v : List Char)
    (ws : List (List Char)) :
    joinOperators (w :: v :: ws) = (joinOperators ws).map ((w ++ v) :: ·) := by
  simp [joinOperators, hw]

/-- No operator is left open at the end of some terms. -/
theorem joinOperators_append (h : joinOperators ws = some terms) :
    joinOperators (ws ++ vs) = (joinOperators vs).map (terms ++ ·) := by
  fun_induction joinOperators ws generalizing terms with
  | case1 =>
    cases h
    simp
  | case2 => cases h
  | case3 w hw =>
    cases h
    exact joinOperators_word (by simpa using hw) vs
  | case4 w v ws hw ih =>
    obtain ⟨more, hmore, rfl⟩ := Option.map_eq_some_iff.1 h
    rw [List.cons_append, List.cons_append, joinOperators_operator hw, ih hmore, Option.map_map]
    rfl
  | case5 w v ws hw ih =>
    obtain ⟨more, hmore, rfl⟩ := Option.map_eq_some_iff.1 h
    rw [List.cons_append, joinOperators_word (by simpa using hw), ih hmore, Option.map_map]
    rfl

theorem orMalformed_eq_ok {α : Type} {x? : Option α} {x : α} :
    orMalformed x? = .ok x ↔ x? = some x := by
  cases x? <;> simp [orMalformed]

theorem ofTerm_hyphen (o : Overflow) : ofTerm o ['-'] = .error .malformed ∧
    ∀ op ∈ operators, ofTerm o (op.1 ++ ['-']) = .error .malformed := by
  cases o <;> decide +kernel

/-- A word of some terms is a term, or an operator stands before it, or it is an operator. -/
theorem mem_joinOperators (h : joinOperators ws = some terms) (hw : w ∈ ws) :
    isOperator w = true ∨ w ∈ terms ∨ ∃ o, isOperator o = true ∧ o ++ w ∈ terms := by
  fun_induction joinOperators ws generalizing terms with
  | case1 => cases hw
  | case2 => cases h
  | case3 v _ =>
    cases h
    exact .inr (.inl hw)
  | case4 o v ws ho ih =>
    obtain ⟨more, hmore, rfl⟩ := Option.map_eq_some_iff.1 h
    rcases List.mem_cons.1 hw with rfl | hw
    · exact .inl ho
    rcases List.mem_cons.1 hw with rfl | hw
    · exact .inr (.inr ⟨o, ho, List.mem_cons_self⟩)
    rcases ih hmore hw with h | h | ⟨o', ho', h⟩
    · exact .inl h
    · exact .inr (.inl (List.mem_cons_of_mem _ h))
    · exact .inr (.inr ⟨o', ho', List.mem_cons_of_mem _ h⟩)
  | case5 u v ws _ ih =>
    obtain ⟨more, hmore, rfl⟩ := Option.map_eq_some_iff.1 h
    rcases List.mem_cons.1 hw with rfl | hw
    · exact .inr (.inl List.mem_cons_self)
    rcases ih hmore hw with h | h | ⟨o, ho, h⟩
    · exact .inl h
    · exact .inr (.inl (List.mem_cons_of_mem _ h))
    · exact .inr (.inr ⟨o, ho, List.mem_cons_of_mem _ h⟩)

theorem hyphen_not_mem {cs : List Comparator} (hyphen : isHyphenated ws = false)
    (h : ofWords o ws = .ok cs) : ['-'] ∉ ws := by
  rw [ofWords_of_not_isHyphenated hyphen] at h
  obtain ⟨terms, hterms, h⟩ := bind_eq_ok.1 h
  obtain ⟨comparators, hcomparators, -⟩ := bind_eq_ok.1 h
  have hread := exists_of_mapM hcomparators
  intro hmem
  rcases mem_joinOperators (orMalformed_eq_ok.1 hterms) hmem with hop | hterm | ⟨sign, hsign, hterm⟩
  · exact absurd hop (by decide)
  · obtain ⟨asked, hasked⟩ := hread _ hterm
    cases (ofTerm_hyphen o).1.symm.trans hasked
  · obtain ⟨⟨start, op⟩, hop, heq⟩ := List.any_eq_true.1 hsign
    obtain rfl : start = sign := of_decide_eq_true heq
    obtain ⟨asked, hasked⟩ := hread _ hterm
    cases ((ofTerm_hyphen o).2 (start, op) hop).symm.trans hasked

theorem isHyphenated_eq_false (h : ['-'] ∉ ws) : isHyphenated ws = false := by
  unfold isHyphenated
  split
  · simp at h
  · rfl

/-- The words of two alternatives ask for what both ask for. -/
theorem ofWords_append {cs ds : List Comparator} (hws : isHyphenated ws = false)
    (hvs : isHyphenated vs = false) (hcs : ofWords o ws = .ok cs) (hds : ofWords o vs = .ok ds) :
    ofWords o (ws ++ vs) = .ok (cs ++ ds) := by
  have hnone : isHyphenated (ws ++ vs) = false := isHyphenated_eq_false fun h =>
    (List.mem_append.1 h).elim (hyphen_not_mem hws hcs) (hyphen_not_mem hvs hds)
  rw [ofWords_of_not_isHyphenated hws] at hcs
  rw [ofWords_of_not_isHyphenated hvs] at hds
  obtain ⟨terms, hterms, hcs⟩ := bind_eq_ok.1 hcs
  obtain ⟨terms', hterms', hds⟩ := bind_eq_ok.1 hds
  obtain ⟨css, hcss, hcs⟩ := bind_eq_ok.1 hcs
  obtain ⟨dss, hdss, hds⟩ := bind_eq_ok.1 hds
  cases hcs
  cases hds
  have hjoined : joinOperators (ws ++ vs) = some (terms ++ terms') := by
    rw [joinOperators_append (orMalformed_eq_ok.1 hterms), orMalformed_eq_ok.1 hterms',
      Option.map_some]
  have hread : (terms ++ terms').mapM (ofTerm o) = .ok (css ++ dss) := by
    rw [List.mapM_append, hcss, hdss]
    rfl
  rw [ofWords_of_not_isHyphenated hnone, hjoined, ← List.flatten_append]
  exact congrArg (fun x => x >>= fun read => pure read.flatten) hread

/-! ## Ranges -/

theorem Range.ofText_eq_ok_of_noBar {text : String} (h : ¬ ['|', '|'] <:+: text.toList)
    {r : Range} (hr : Range.ofText o text = .ok r) :
    ∃ cs, ofWords o (Text.words text.toList) = .ok cs ∧ r = [cs] := by
  rw [ofText_of_noBar text h] at hr
  obtain ⟨cs, hcs, hr⟩ := bind_eq_ok.1 hr
  cases hr
  exact ⟨cs, hcs, rfl⟩

/-- A text without double bars that follows another one after a blank adds its terms. -/
theorem Range.ofText_terms {a b : String} (ha : ¬ ['|', '|'] <:+: a.toList)
    (hb : ¬ ['|', '|'] <:+: b.toList) (ha' : isHyphenated a = false) (hb' : isHyphenated b = false)
    {r s : Range} (hr : Range.ofText o a = .ok r) (hs : Range.ofText o b = .ok s) :
    ∃ cs ds, r = [cs] ∧ s = [ds] ∧ Range.ofText o (a ++ " " ++ b) = .ok [cs ++ ds] := by
  have htext : (a ++ " " ++ b).toList = a.toList ++ ' ' :: b.toList := by simp
  obtain ⟨cs, hcs, rfl⟩ := ofText_eq_ok_of_noBar ha hr
  obtain ⟨ds, hds, rfl⟩ := ofText_eq_ok_of_noBar hb hs
  refine ⟨cs, ds, rfl, rfl, ?_⟩
  rw [ofText_of_noBar, htext, Text.words_append_blank (by decide), ofWords_append ha' hb' hcs hds]
  · rfl
  · rw [htext]
    exact Text.noBar_append ha (by decide) hb

/-- **Ranges compose.** A text with a double bar between two texts writes a range exactly if both
sides do, and then admits the versions that either of them admits. Of two texts that write ranges
without double bars, neither of them with a hyphen between two patterns, the second one after the
first one and a blank writes the range of the versions that both admit. This holds whatever becomes
of sums that do not fit 64 bits: if the program stops at one, there is no range, and the text with a
double bar stops it exactly if its left side does, or if it writes a range and the right side
does. -/
theorem Range.composition :
    (∀ (o : Overflow) (a b : String),
      ((∃ t, Range.ofText o (a ++ " || " ++ b) = .ok t) ↔
        (∃ r, Range.ofText o a = .ok r) ∧ ∃ s, Range.ofText o b = .ok s) ∧
      (∀ e, Range.ofText o (a ++ " || " ++ b) = .error e ↔ Range.ofText o a = .error e ∨
        (∃ r, Range.ofText o a = .ok r) ∧ Range.ofText o b = .error e) ∧
      ∀ r s, Range.ofText o a = .ok r → Range.ofText o b = .ok s →
        ∃ t, Range.ofText o (a ++ " || " ++ b) = .ok t ∧
          ∀ v, t.holds v = (r.holds v || s.holds v)) ∧
    ∀ (o : Overflow) (a b : String) (r s : Range),
      ¬ ['|', '|'] <:+: a.toList → ¬ ['|', '|'] <:+: b.toList →
      isHyphenated a = false → isHyphenated b = false →
      Range.ofText o a = .ok r → Range.ofText o b = .ok s →
      ∃ t, Range.ofText o (a ++ " " ++ b) = .ok t ∧
        ∀ v, t.holds v = (r.holds v && s.holds v) := by
  refine ⟨fun o a b => ?_, fun o a b r s ha hb ha' hb' hr hs => ?_⟩
  · rw [ofText_alternatives]
    rcases Range.ofText o a with e | r
    · simp [bind, Except.bind]
    rcases Range.ofText o b with e | s
    · simp [bind, Except.bind]
    refine ⟨by simp [bind, Except.bind, pure, Except.pure],
      by simp [bind, Except.bind, pure, Except.pure], ?_⟩
    rintro _ _ ⟨⟩ ⟨⟩
    exact ⟨r ++ s, rfl, fun v => List.any_append⟩
  · obtain ⟨cs, ds, rfl, rfl, ht⟩ := ofText_terms ha hb ha' hb' hr hs
    refine ⟨[cs ++ ds], ht, fun v => ?_⟩
    simp [Range.holds]

/-- The operators of `>= 1.2.3` and `< 2.0.0` stand apart from their versions, and a bar ends the
build metadata of the first one. -/
theorem Range.composition_of_open :
    let a : String := ">= 1.2.3+b|"
    let b : String := "< 2.0.0"
    let v : Version := ⟨1, 5, 0, []⟩
    let w : Version := ⟨2, 0, 0, []⟩
    ∃ r s t u, Range.ofText .stops a = .ok r ∧ Range.ofText .stops b = .ok s ∧
      Range.ofText .stops (a ++ " " ++ b) = .ok t ∧ Range.ofText .stops (a ++ " || " ++ b) = .ok u ∧
      t.holds v = true ∧ t.holds w = false ∧ u.holds w = true := by
  intro a b v w
  have hr : Range.ofText .stops a = .ok [[⟨.ge, ⟨1, 2, 3, []⟩⟩]] := by decide +kernel
  have hs : Range.ofText .stops b = .ok [[⟨.lt, ⟨2, 0, 0, []⟩⟩]] := by decide +kernel
  obtain ⟨hor, hand⟩ := composition
  obtain ⟨u, hu, hunion⟩ := (hor .stops a b).2.2 _ _ hr hs
  obtain ⟨t, ht, hboth⟩ := hand .stops a b _ _ (by decide +kernel) (by decide +kernel)
    (by decide +kernel) (by decide +kernel) hr hs
  refine ⟨_, _, t, u, hr, hs, ht, hu, ?_, ?_, ?_⟩
  · rw [hboth]
    decide
  · rw [hboth]
    decide
  · rw [hunion]
    decide

end Version

end ScriptFold
