import Mathlib.Data.List.Infix
import ScriptFold.Proofs.Version.Order
import ScriptFold.Version.Range

/-!
Laws of comparisons in ranges.

For one pattern the terms with `<` and `>=` exclude each other and leave nothing out, and so do
those with `>` and `<=`; the pattern itself asks for what `>=` and `<=` ask for together. A hyphen
between two patterns asks for the same as `>=` before the first one and `<=` before the second one.
-/

namespace ScriptFold

namespace Text

/-! ## Words -/

/-- The text is not empty, and neither a blank nor a double bar cuts it into parts. -/
structure IsWord (cs : List Char) : Prop where
  ne_nil : cs ≠ []
  unbroken : ∀ c ∈ cs, isBlank c = false
  noBar : ¬ ['|', '|'] <:+: cs

instance (cs : List Char) : Decidable (IsWord cs) :=
  decidable_of_iff (cs ≠ [] ∧ cs.all (!isBlank ·) ∧ ¬ ['|', '|'] <:+: cs)
    ⟨fun ⟨h, h', h''⟩ => ⟨h, by simpa using h', h''⟩,
      fun ⟨h, h', h''⟩ => ⟨h, by simpa using h', h''⟩⟩

/-- The character neither cuts a text into parts nor belongs to what does. -/
def isPlain (c : Char) : Bool := !isBlank c && c != '|'

variable {c : Char} {cs ds : List Char}

theorem splitDoubleBar_of_noBar (h : ¬ ['|', '|'] <:+: cs) : splitDoubleBar cs = [cs] := by
  fun_induction splitDoubleBar cs with
  | case1 => rfl
  | case2 rest => exact absurd (List.prefix_append ['|', '|'] rest).isInfix h
  | case3 c rest _ hnil ih =>
    rw [ih fun hrest => h (List.infix_cons hrest)] at hnil
    cases hnil
  | case4 c rest _ part parts hparts ih =>
    rw [ih fun hrest => h (List.infix_cons hrest)] at hparts
    cases hparts
    rfl

/-- Two bars around another character are not a double bar. -/
theorem noBar_append (hcs : ¬ ['|', '|'] <:+: cs) (hc : c ≠ '|') (hds : ¬ ['|', '|'] <:+: ds) :
    ¬ ['|', '|'] <:+: cs ++ c :: ds := by
  induction cs with
  | nil =>
    rw [List.nil_append, List.infix_cons_iff, List.cons_prefix_cons]
    rintro (⟨rfl, -⟩ | h)
    · exact hc rfl
    · exact hds h
  | cons d cs ih =>
    rw [List.infix_cons_iff] at hcs
    rw [List.cons_append, List.infix_cons_iff]
    rintro (h | h)
    · obtain ⟨rfl, hrest⟩ := List.cons_prefix_cons.1 h
      cases cs with
      | nil => exact hc (List.cons_prefix_cons.1 hrest).1.symm
      | cons d' cs =>
        obtain ⟨rfl, -⟩ := List.cons_prefix_cons.1 hrest
        exact hcs (.inl (List.prefix_append ['|', '|'] cs))
    · exact ih (fun h => hcs (.inr h)) h

theorem noBar_cons (hc : c ≠ '|') (h : ¬ ['|', '|'] <:+: cs) : ¬ ['|', '|'] <:+: c :: cs :=
  noBar_append (by decide : ¬ ['|', '|'] <:+: []) hc h

theorem dropWhile_of_unbroken (h : ∀ c ∈ cs, isBlank c = false) : cs.dropWhile isBlank = cs := by
  cases cs with
  | nil => rfl
  | cons c cs => rw [List.dropWhile_cons_of_neg (by simp [h c List.mem_cons_self])]

theorem trim_of_unbroken (h : ∀ c ∈ cs, isBlank c = false) : trim cs = cs := by
  have hreverse : ∀ c ∈ cs.reverse, isBlank c = false := fun c hc => h c (List.mem_reverse.1 hc)
  rw [trim, dropWhile_of_unbroken h, dropWhile_of_unbroken hreverse, List.reverse_reverse]

theorem IsWord.words_eq (h : IsWord cs) : words cs = [cs] := by
  rw [words, List.splitOnP_eq_singleton fun c hc => h.unbroken c hc]
  simp [h.ne_nil]

/-- Signs before a word belong to the word. -/
theorem IsWord.append_left (h : IsWord cs) (ds : List Char) (hds : ds.all isPlain) :
    IsWord (ds ++ cs) := by
  induction ds with
  | nil => exact h
  | cons d ds ih =>
    obtain ⟨hd, hds⟩ := Bool.and_eq_true_iff.1 (List.all_cons.symm.trans hds)
    have hword := ih hds
    obtain ⟨hblank, hbar⟩ : isBlank d = false ∧ d ≠ '|' := by simpa [isPlain] using hd
    exact ⟨List.cons_ne_nil d _, List.forall_mem_cons.2 ⟨hblank, hword.unbroken⟩,
      noBar_cons hbar hword.noBar⟩

end Text

namespace Version

open Text (IsWord)

/-! ## Comparators -/

namespace Comparator

theorem holds_lt (v w : Version) : holds ⟨.lt, w⟩ v = !holds ⟨.ge, w⟩ v := by
  unfold holds
  cases v.compare w <;> rfl

theorem holds_gt (v w : Version) : holds ⟨.gt, w⟩ v = !holds ⟨.le, w⟩ v := by
  unfold holds
  cases v.compare w <;> rfl

theorem holds_eq (v w : Version) : holds ⟨.eq, w⟩ v = (holds ⟨.ge, w⟩ v && holds ⟨.le, w⟩ v) := by
  unfold holds
  cases v.compare w <;> rfl

/-- Every version comes at or after the least one. -/
theorem holds_never (v : Version) : never.holds v = false := by
  have hle : ((floor 0 0 0).compare v).isLE := v.isLE_least_compare
  unfold never holds
  have hswap : v.compare (floor 0 0 0) = ((floor 0 0 0).compare v).swap := Std.OrientedCmp.eq_swap
  rw [hswap]
  cases h : (floor 0 0 0).compare v with
  | lt | eq => rfl
  | gt =>
    rw [h] at hle
    cases hle

end Comparator

/-- The version is all that is asked for, if something can be asked for. -/
def meets (v : Version) : Except RangeError (List Comparator) → Bool
  | .ok cs => cs.all (·.holds v)
  | .error _ => false

/-! ## Patterns -/

theorem Overflow.next_of_lt (o : Overflow) {n : Nat} (h : n + 1 < UInt64.size) :
    o.next n = .ok (n + 1) := if_pos h

theorem Overflow.exists_next {o : Overflow} {n : Nat} (h : o = .wraps ∨ n + 1 < UInt64.size) :
    ∃ m, o.next n = .ok m := by
  rcases h with rfl | h
  · unfold next
    split <;> exact ⟨_, rfl⟩
  · exact ⟨_, o.next_of_lt h⟩

namespace Pattern

variable {o : Overflow} (p : Pattern) (v : Version)

def numbers : Pattern → List Nat
  | any => []
  | .major a => [a]
  | .minor a b => [a, b]
  | .full w => [w.major, w.minor, w.patch]

/-- The versions before a pattern are those that are not at or after it. -/
theorem all_below : p.below.all (·.holds v) = !p.atLeast.all (·.holds v) := by
  cases p <;> simp [below, atLeast, Comparator.holds_never, Comparator.holds_lt]

/-- The versions after a pattern are those that are not at or before it, unless the program stops. -/
theorem meets_above (h : o = .wraps ∨ ∀ n ∈ p.numbers, n + 1 < UInt64.size) :
    v.meets (p.above o) = !v.meets (p.atMost o) := by
  cases p with
  | any => simp [above, atMost, meets, Comparator.holds_never]
  | full w => simp [above, atMost, upper?, lower, meets, Except.map, Comparator.holds_gt]
  | major a =>
    obtain ⟨n, hn⟩ := Overflow.exists_next (h.imp_right fun h => h a (by simp [numbers]))
    simp [above, atMost, upper?, meets, Except.map, hn, Comparator.holds_lt]
  | minor a b =>
    obtain ⟨n, hn⟩ := Overflow.exists_next (h.imp_right fun h => h b (by simp [numbers]))
    simp [above, atMost, upper?, meets, Except.map, hn, Comparator.holds_lt]

/-- The versions that fit a pattern are neither before nor after it. -/
theorem meets_fitting :
    v.meets (p.fitting o) = (p.atLeast.all (·.holds v) && v.meets (p.atMost o)) := by
  cases p with
  | any => rfl
  | full w =>
    simp [fitting, atLeast, atMost, upper?, lower, meets, Except.map, Comparator.holds_eq]
  | major a => cases hn : o.next a <;> simp [fitting, atLeast, atMost, upper?, lower, meets,
      Except.map, hn]
  | minor a b => cases hn : o.next b <;> simp [fitting, atLeast, atMost, upper?, lower, meets,
      Except.map, hn]

/-! ## Beginnings of patterns -/

/-- The characters that a pattern may begin with. -/
def isStart (c : Char) : Bool := c.isDigit || ['=', 'v', 'V', '+', '-', 'x', 'X', '*'].contains c

variable {p : Pattern} {c : Char} {cs : List Char}

theorem numbers_of_ofText? (h : ofText? cs = some p) :
    ∃ core rest numbers, (withoutSigns cs).takeWhile (· ≠ '+') = core ++ rest ∧
      (rest = [] ∨ rest.head? = some '-') ∧ numbers? (parts core) = some numbers := by
  unfold ofText? at h
  cases hcut : Text.cutAt '-' ((withoutSigns cs).takeWhile (· ≠ '+')) with
  | none =>
    simp only [hcut] at h
    split at h
    · cases h
    obtain ⟨numbers, hnumbers, -⟩ := Option.bind_eq_some_iff.1 h
    exact ⟨_, [], numbers, (List.append_nil _).symm, .inl rfl, hnumbers⟩
  | some cut =>
    obtain ⟨core, tag⟩ := cut
    simp only [hcut] at h
    split at h
    · cases h
    obtain ⟨numbers, hnumbers, -⟩ := Option.bind_eq_some_iff.1 h
    exact ⟨core, '-' :: tag, numbers, (Text.eq_of_cutAt hcut).1, .inr rfl, hnumbers⟩

theorem withoutSigns_of_not_isStart (hcs : ∀ d ∈ c :: cs, Text.isBlank d = false)
    (hc : isStart c = false) : withoutSigns (c :: cs) = c :: cs := by
  simp only [isStart, Bool.or_eq_false_iff, List.contains_eq_mem, List.mem_cons, List.not_mem_nil,
    or_false, decide_eq_false_iff_not, not_or] at hc
  simp [withoutSigns, Text.trim_of_unbroken hcs, Text.dropWhile_of_unbroken hcs, hc]

theorem isStart_of_numbers? {numbers : List Nat} (h : numbers? (parts (c :: cs)) = some numbers) :
    isStart c = true := by
  by_contra hstart
  simp only [isStart, Bool.or_eq_true, List.contains_eq_mem, List.mem_cons, List.not_mem_nil,
    or_false, decide_eq_true_eq, not_or] at hstart
  -- The first part is empty, or it begins with the same character.
  have hfirst : ∃ w ws, parts (c :: cs) = w :: ws ∧ (w = [] ∨ w.head? = some c) := by
    rw [parts, if_neg (List.cons_ne_nil c cs), List.splitOn_eq_splitOnP,
      List.splitOnP_cons_eq_if_modifyHead]
    split
    · exact ⟨[], _, rfl, .inl rfl⟩
    · obtain ⟨w, ws, hw⟩ := List.exists_cons_of_ne_nil (List.splitOnP_ne_nil (· == '.') cs)
      exact ⟨c :: w, ws, by rw [hw, List.modifyHead_cons], .inr rfl⟩
  obtain ⟨w, ws, hparts, hw⟩ := hfirst
  have hwild : isWild w = false := by
    rcases hw with rfl | hw
    · rfl
    · cases w with
      | nil => cases hw
      | cons d w =>
        cases hw
        simp [isWild, hstart]
  have hnumber : number? w = none := by
    rcases hw with rfl | hw
    · rfl
    · cases w with
      | nil => cases hw
      | cons d w =>
        cases hw
        simp [number?, hstart]
  rw [hparts, numbers?, hwild, hnumber] at h
  cases h

/-- A pattern does not begin with the sign of an operator, but for the equals sign. -/
theorem isStart_of_ofText? (hcs : ∀ d ∈ c :: cs, Text.isBlank d = false)
    (h : ofText? (c :: cs) = some p) : isStart c = true := by
  by_contra hstart
  rw [Bool.not_eq_true] at hstart
  have hplus : c ≠ '+' := by
    rintro rfl
    cases hstart
  obtain ⟨core, rest, numbers, hcore, hrest, hnumbers⟩ := numbers_of_ofText? h
  rw [withoutSigns_of_not_isStart hcs hstart, List.takeWhile_cons_of_pos (by simpa using hplus)]
    at hcore
  cases core with
  | nil =>
    -- What begins with a hyphen has no numbers.
    rw [List.nil_append] at hcore
    rw [← hcore] at hrest
    rcases hrest with hrest | hrest
    · cases hrest
    · cases hrest
      cases hstart
  | cons d core =>
    obtain ⟨rfl, -⟩ := List.cons.inj hcore
    rw [isStart_of_numbers? hnumbers] at hstart
    cases hstart

end Pattern

/-! ## Terms -/

variable {o : Overflow} {w w' cs : List Char} {p : Pattern} {op : Operator}

theorem splitOperator_strict {c : Char} (hop : (c = '>' ∧ op = .above) ∨ (c = '<' ∧ op = .below))
    (heq : cs.head? ≠ some '=') : splitOperator (c :: cs) = (op, cs) := by
  cases cs with
  | nil => rcases hop with ⟨rfl, rfl⟩ | ⟨rfl, rfl⟩ <;> rfl
  | cons d ds =>
    have hd : '=' ≠ d := fun h => heq (by rw [← h]; rfl)
    rcases hop with ⟨rfl, rfl⟩ | ⟨rfl, rfl⟩ <;>
      simp [splitOperator, operators, Text.dropStart?, hd]

theorem not_operator_of_pattern (hcs : ∀ c ∈ cs, Text.isBlank c = false)
    (heq : cs.head? ≠ some '=') (h : Pattern.ofText? cs = some p) :
    ∀ o ∈ operators, ¬ o.1 <+: cs := by
  have hfirst : ∀ o ∈ operators, o.1.head?.any fun c => !Pattern.isStart c || c == '=' := by
    decide
  rintro ⟨start, op⟩ ho ⟨rest, rfl⟩
  have hstart := hfirst _ ho
  cases start with
  | nil => cases hstart
  | cons c start =>
    have hc : Pattern.isStart c = true := Pattern.isStart_of_ofText? hcs h
    have hsign : c = '=' := by simpa [hc] using hstart
    exact heq (congrArg some hsign)

theorem splitOperator_of_pattern (h : ∀ o ∈ operators, ¬ o.1 <+: cs) :
    splitOperator cs = (.exactly, cs) := by
  have hnone (o : List Char × Operator) (ho : o ∈ operators) :
      (Text.dropStart? o.1 cs).map (fun rest => (o.2, rest)) = none := by
    rw [Option.map_eq_none_iff, Option.eq_none_iff_forall_ne_some]
    intro rest hrest
    exact h o ho ⟨rest, (Text.dropStart?_eq_some_iff.1 hrest).symm⟩
  unfold splitOperator
  rw [List.findSome?_eq_none_iff.2 hnone]
  rfl

theorem isOperator_of_pattern (h : ∀ o ∈ operators, ¬ o.1 <+: cs) : isOperator cs = false := by
  refine List.any_eq_false.2 fun o ho heq => h o ho ?_
  rw [of_decide_eq_true heq]

/-- Only double bars cut a range into alternatives. -/
theorem Range.ofText_of_noBar (text : String) (h : ¬ ['|', '|'] <:+: text.toList) :
    Range.ofText o text = do return [← ofWords o (Text.words text.toList)] := by
  rw [Range.ofText, Text.splitDoubleBar_of_noBar h, List.mapM_cons]
  rfl

theorem joinOperators_of_terms {ws : List (List Char)} (h : ∀ w ∈ ws, isOperator w = false) :
    joinOperators ws = some ws := by
  fun_induction joinOperators ws with
  | case1 => rfl
  | case2 w hw => simp [h w List.mem_cons_self] at hw
  | case3 w _ => rfl
  | case4 w next rest hw _ => simp [h w List.mem_cons_self] at hw
  | case5 w next rest _ ih => rw [ih fun w' hw' => h w' (List.mem_cons_of_mem w hw')]; rfl

/-- An alternative of terms asks for what its terms ask for. -/
theorem ofWords_of_terms {ws : List (List Char)} (h : ∀ w ∈ ws, isOperator w = false)
    (hhyphen : ∀ w w', ws ≠ [w, ['-'], w']) :
    ofWords o ws = do return (← ws.mapM (ofTerm o)).flatten := by
  unfold ofWords
  split
  · exact absurd rfl (hhyphen _ _)
  · rw [joinOperators_of_terms h]
    rfl

def Range.admits (o : Overflow) (text : String) (v : Version) : Bool :=
  match Range.ofText o text with
  | .ok r => r.holds v
  | .error _ => false

/-- A word with an operator before it admits what the operator makes of its pattern. -/
theorem Range.admits_term {term : String} (start : List Char) (hterm : term.toList = start ++ cs)
    (hstart : start.all Text.isPlain) (hcs : IsWord cs)
    (hop : isOperator (start ++ cs) = false) (hsplit : splitOperator (start ++ cs) = (op, cs))
    (hp : Pattern.ofText? cs = some p) (v : Version) :
    Range.admits o term v = v.meets (op.comparators o p) := by
  have hword : IsWord (start ++ cs) := hcs.append_left start hstart
  have hcomparators : ofTerm o (start ++ cs) = op.comparators o p := by
    rw [ofTerm, hsplit]
    dsimp only
    rw [hp]
    rfl
  rw [admits, ofText_of_noBar term (by rw [hterm]; exact hword.noBar), hterm, hword.words_eq,
    ofWords_of_terms (by simpa using hop) (by simp), List.mapM_cons, hcomparators]
  cases op.comparators o p with
  | error e => rfl
  | ok cs => simp [Range.holds, meets, pure, Except.pure, bind, Except.bind]

theorem isOperator_of_length (h : 2 < w.length) : isOperator w = false := by
  have hshort : ∀ o ∈ operators, o.1.length ≤ 2 := by decide
  refine List.any_eq_false.2 fun o ho heq => ?_
  have hlength := hshort o ho
  rw [of_decide_eq_true heq] at hlength
  omega

theorem isOperator_sign {c : Char} (hc : c = '<' ∨ c = '>' ∨ c = '=') (hcs : cs ≠ [])
    (heq : cs.head? ≠ some '=') : isOperator (c :: cs) = false := by
  obtain ⟨d, ds, rfl⟩ := List.exists_cons_of_ne_nil hcs
  have hd : '=' ≠ d := fun h => heq (by rw [← h]; rfl)
  rcases hc with rfl | rfl | rfl <;> simp [isOperator, operators, hd]

/-- A hyphen between two words asks for what the two words ask for after operators. -/
theorem ofWords_hyphen (hw : w ≠ []) (hw' : w' ≠ []) :
    ofWords o [w, ['-'], w'] = ofWords o ['>' :: '=' :: w, '<' :: '=' :: w'] := by
  have hoperators : ∀ v ∈ ['>' :: '=' :: w, '<' :: '=' :: w'], isOperator v = false := by
    have hlength := List.length_pos_of_ne_nil hw
    have hlength' := List.length_pos_of_ne_nil hw'
    simp only [List.forall_mem_cons, List.not_mem_nil, false_imp_iff, implies_true, and_true]
    exact ⟨isOperator_of_length (by simpa using hlength),
      isOperator_of_length (by simpa using hlength')⟩
  have hhyphen : ofWords o [w, ['-'], w'] = ofHyphen o w w' := rfl
  have hleft : ofTerm o ('>' :: '=' :: w) =
      (do return (← orMalformed (Pattern.ofText? w)).atLeast) := rfl
  have hright : ofTerm o ('<' :: '=' :: w') =
      (do (← orMalformed (Pattern.ofText? w')).atMost o) := rfl
  rw [hhyphen, ofWords_of_terms hoperators (by simp), ofHyphen]
  simp only [List.mapM_cons, List.mapM_nil, hleft, hright, bind_assoc, pure_bind,
    List.flatten_cons, List.flatten_nil, List.append_nil]

/-- The text with a hyphen writes the same range as the text with operators. -/
theorem Range.ofText_hyphen {a b : String} (ha : IsWord a.toList) (hb : IsWord b.toList) :
    Range.ofText o (a ++ " - " ++ b) = Range.ofText o (">=" ++ a ++ " <=" ++ b) := by
  have hhyphen : (a ++ " - " ++ b).toList = a.toList ++ ' ' :: (['-'] ++ ' ' :: b.toList) := by
    simp
  have hsigns : (">=" ++ a ++ " <=" ++ b).toList =
      ('>' :: '=' :: a.toList) ++ ' ' :: ('<' :: '=' :: b.toList) := by simp
  have hblank : Text.isBlank ' ' = true := by decide
  have hdash : IsWord ['-'] := by decide
  have ha' : IsWord ('>' :: '=' :: a.toList) := ha.append_left ['>', '='] (by decide)
  have hb' : IsWord ('<' :: '=' :: b.toList) := hb.append_left ['<', '='] (by decide)
  have hwords : Text.words (a ++ " - " ++ b).toList = [a.toList, ['-'], b.toList] := by
    rw [hhyphen, Text.words_append_blank hblank, Text.words_append_blank hblank, ha.words_eq,
      hdash.words_eq, hb.words_eq]
    rfl
  have hwords' : Text.words (">=" ++ a ++ " <=" ++ b).toList =
      ['>' :: '=' :: a.toList, '<' :: '=' :: b.toList] := by
    rw [hsigns, Text.words_append_blank hblank, ha'.words_eq, hb'.words_eq]
    rfl
  rw [ofText_of_noBar, ofText_of_noBar, hwords, hwords', ofWords_hyphen ha.ne_nil hb.ne_nil]
  · rw [hsigns]
    exact Text.noBar_append ha'.noBar (by decide) hb'.noBar
  · rw [hhyphen]
    exact Text.noBar_append ha.noBar (by decide)
      (Text.noBar_append hdash.noBar (by decide) hb.noBar)

/-- **Comparisons in ranges.** Let `text` be a word that writes a pattern and does not begin with an
equals sign. Every version lies in exactly one of the ranges with `<` and `>=` before the word, and
in exactly one of those with `>` and `<=`, unless the program stops because a number of the pattern
is the largest one of 64 bits; it lies in the range that the word writes, with or without an equals
sign before it, if it lies in those with `>=` and `<=`. For any words `a` and `b` the ranges `a - b`
and `>=a <=b` admit the same versions. -/
theorem Range.comparison_laws :
    (∀ (o : Overflow) (text : String) (p : Pattern) (v : Version), IsWord text.toList →
      text.toList.head? ≠ some '=' → Pattern.ofText? text.toList = some p →
      admits o ("<" ++ text) v = !admits o (">=" ++ text) v ∧
      ((o = .wraps ∨ ∀ n ∈ p.numbers, n + 1 < UInt64.size) →
        admits o (">" ++ text) v = !admits o ("<=" ++ text) v) ∧
      admits o text v = (admits o (">=" ++ text) v && admits o ("<=" ++ text) v) ∧
      admits o ("=" ++ text) v = (admits o (">=" ++ text) v && admits o ("<=" ++ text) v)) ∧
    ∀ (o : Overflow) (a b version : String), IsWord a.toList → IsWord b.toList →
      satisfies o version (a ++ " - " ++ b) = satisfies o version (">=" ++ a ++ " <=" ++ b) := by
  refine ⟨fun o text p v hword heq hp => ?_, fun o a b version ha hb => ?_⟩
  · have hne := hword.ne_nil
    have hnone := not_operator_of_pattern hword.unbroken heq hp
    have hlong : isOperator ('>' :: '=' :: text.toList) = false ∧
        isOperator ('<' :: '=' :: text.toList) = false := by
      have hlength := List.length_pos_of_ne_nil hne
      exact ⟨isOperator_of_length (by simpa using hlength),
        isOperator_of_length (by simpa using hlength)⟩
    have hbelow : admits o ("<" ++ text) v = p.below.all (·.holds v) :=
      admits_term ['<'] (by simp) (by decide) hword
        (isOperator_sign (.inl rfl) hne heq) (splitOperator_strict (.inr ⟨rfl, rfl⟩) heq) hp v
    have habove : admits o (">" ++ text) v = v.meets (p.above o) :=
      admits_term ['>'] (by simp) (by decide) hword
        (isOperator_sign (.inr (.inl rfl)) hne heq) (splitOperator_strict (.inl ⟨rfl, rfl⟩) heq)
        hp v
    have hatLeast : admits o (">=" ++ text) v = p.atLeast.all (·.holds v) :=
      admits_term ['>', '='] (by simp) (by decide) hword hlong.1 rfl hp v
    have hatMost : admits o ("<=" ++ text) v = v.meets (p.atMost o) :=
      admits_term ['<', '='] (by simp) (by decide) hword hlong.2 rfl hp v
    have hsigned : admits o ("=" ++ text) v = v.meets (p.fitting o) :=
      admits_term ['='] (by simp) (by decide) hword
        (isOperator_sign (.inr (.inr rfl)) hne heq) rfl hp v
    have hplain : admits o text v = v.meets (p.fitting o) :=
      admits_term [] (by simp) rfl hword (isOperator_of_pattern hnone)
        (splitOperator_of_pattern hnone) hp v
    rw [hbelow, habove, hatLeast, hatMost, hsigned, hplain]
    exact ⟨p.all_below v, p.meets_above v, p.meets_fitting v, p.meets_fitting v⟩
  · unfold satisfies
    rw [ofText_hyphen ha hb]

/-- The pre-release `1.3.0-0` is not before `1.2.x` but after it. -/
theorem Range.comparison_laws_of_open :
    let text : String := "1.2.x"
    let p : Pattern := .minor 1 2
    let v : Version := ⟨1, 3, 0, [.numeric 0]⟩
    IsWord text.toList ∧ text.toList.head? ≠ some '=' ∧ Pattern.ofText? text.toList = some p ∧
      (∀ n ∈ p.numbers, n + 1 < UInt64.size) ∧
      admits .stops (">" ++ text) v = true ∧ admits .stops ("<=" ++ text) v = false ∧
      admits .stops text v = false ∧
      satisfies .stops "1.2.9" ("1.x" ++ " - " ++ text) =
        satisfies .stops "1.2.9" (">=" ++ "1.x" ++ " <=" ++ text) := by
  intro text p v
  have hword : IsWord text.toList := by decide +kernel
  have heq : text.toList.head? ≠ some '=' := by decide +kernel
  have hp : Pattern.ofText? text.toList = some p := by decide +kernel
  have hnumbers : ∀ n ∈ p.numbers, n + 1 < UInt64.size := by decide
  have hafter : admits .stops (">" ++ text) v = true := by decide +kernel
  obtain ⟨hpattern, hhyphen⟩ := comparison_laws
  obtain ⟨-, habove, hplain, -⟩ := hpattern .stops text p v hword heq hp
  have hatMost : admits .stops ("<=" ++ text) v = false := by
    rw [habove (.inr hnumbers)] at hafter
    simpa using hafter
  rw [hatMost, Bool.and_false] at hplain
  exact ⟨hword, heq, hp, hnumbers, hafter, hatMost, hplain,
    hhyphen .stops "1.x" text "1.2.9" (by decide +kernel) hword⟩

end Version

end ScriptFold
