import ScriptFold.Proofs.Lexeme.Tiling
import ScriptFold.Proofs.Literal.Lexemes

/-!
The texts of tokens.

To see where a token ends, the scanner looks at up to three characters after it. No token goes on
with a space, so the text of a token is read as the same token wherever a space or nothing follows
it. For each kind of token this is a law of the runs of characters that it consists of: a run that
was counted in one text is counted in all texts that begin with it and do not go on with it.
-/

namespace ScriptFold

variable {c : Char} {cs rest : List Char}

/-- What stands apart from a text before it: nothing, or something after a space. -/
def Apart (rest : List Char) : Prop := ∀ c ∈ rest.head?, c = ' '

theorem apart_nil : Apart [] := by
  rintro c ⟨⟩

theorem apart_space (cs : List Char) : Apart (' ' :: cs) := by
  rintro c ⟨⟩
  rfl

namespace Apart

theorem any_eq_false {p : Char → Bool} (h : Apart rest) (hp : p ' ' = false) :
    rest.head?.any p = false := by
  cases rest with
  | nil => rfl
  | cons c rest =>
    obtain rfl := h c rfl
    exact hp

theorem stopsDigits (h : Apart rest) : StopsDigits rest := by
  intro c hc
  obtain rfl := h c hc
  decide

theorem ne_head (h : Apart rest) (hc : c ≠ ' ') : rest.head? ≠ some c := fun hhead =>
  hc (h c hhead)

end Apart

/-! ## Runs -/

theorem any_head?_iff {p : Char → Bool} : cs.head?.any p ↔ ∃ d ds, cs = d :: ds ∧ p d := by
  cases cs with
  | nil => simp
  | cons c cs => simp

theorem digitRun_cons (hc : c.isDigit) (cs : List Char) : digitRun (c :: cs) = digitRun cs + 1 := by
  rw [digitRun, if_pos hc]
  rintro _ _ rfl
  exact absurd hc (by decide)

theorem exists_digitRun (cs : List Char) : ∃ run after, cs = run ++ after ∧
    digitRun cs = run.length ∧ ∀ rest, StopsDigits rest → digitRun (run ++ rest) = run.length := by
  fun_induction digitRun cs with
  | case1 => exact ⟨[], [], rfl, rfl, fun _ => digitRun_of_stops⟩
  | case2 d cs hd ih =>
    obtain ⟨run, after, hcs, hlength, hrun⟩ := ih
    cases run with
    | nil =>
      rw [digitRun_cons hd] at hlength
      cases hlength
    | cons x run =>
      -- The digit after the underscore is in the run too.
      obtain ⟨rfl, rfl⟩ := List.cons.inj hcs
      refine ⟨'_' :: d :: run, after, rfl, congrArg (· + 1) hlength, fun rest hrest => ?_⟩
      have h := hrun rest hrest
      rw [List.cons_append] at h
      rw [List.cons_append, List.cons_append, digitRun, if_pos hd, h]
      rfl
  | case3 d cs hd => exact ⟨[], _, rfl, rfl, fun _ => digitRun_of_stops⟩
  | case4 c cs hnext hc ih =>
    obtain ⟨run, after, rfl, hlength, hrun⟩ := ih
    refine ⟨c :: run, after, rfl, congrArg (· + 1) hlength, fun rest hrest => ?_⟩
    rw [List.cons_append, digitRun_cons hc, hrun rest hrest, List.length_cons]
  | case5 c cs hnext hc => exact ⟨[], _, rfl, rfl, fun _ => digitRun_of_stops⟩

theorem fractionRun_of_ne_point (h : cs.head? ≠ some '.') : fractionRun cs = 0 := by
  unfold fractionRun
  split
  · exact absurd List.head?_cons h
  · rfl

theorem exists_fractionRun (cs : List Char) : ∃ run after, cs = run ++ after ∧
    fractionRun cs = run.length ∧ (∀ c ∈ run.head?, c = '.') ∧
    ∀ rest, StopsDigits rest → rest.head? ≠ some '.' → fractionRun (run ++ rest) = run.length := by
  by_cases hpoint : cs.head? = some '.'
  · obtain ⟨cs, rfl⟩ := List.head?_eq_some_iff.1 hpoint
    obtain ⟨run, after, rfl, hlength, hrun⟩ := exists_digitRun cs
    refine ⟨'.' :: run, after, rfl, congrArg (· + 1) hlength, ?_, fun rest hrest _ => ?_⟩
    · rintro _ ⟨⟩
      rfl
    · exact congrArg (· + 1) (hrun rest hrest)
  · refine ⟨[], cs, rfl, fractionRun_of_ne_point hpoint, ?_, fun rest _ hne => ?_⟩
    · rintro _ ⟨⟩
    · exact fractionRun_of_ne_point hne

/-- An exponent: its letter, perhaps a sign, and at least one digit. -/
theorem exponentRun_signed {sign : List Char} {d : Char} (hc : c = 'e' ∨ c = 'E')
    (hsign : sign = [] ∨ sign = ['+'] ∨ sign = ['-']) (hd : d.isDigit) (cs : List Char) :
    exponentRun (c :: (sign ++ d :: cs)) = digitRun (d :: cs) + sign.length + 1 := by
  have hplus : d ≠ '+' := ne_of_isDigit hd (by decide)
  have hminus : d ≠ '-' := ne_of_isDigit hd (by decide)
  rcases hsign with rfl | rfl | rfl <;> simp [exponentRun, hc, hd, hplus, hminus]

theorem exponent_of_exponentRun_ne_zero (h : exponentRun cs ≠ 0) : ∃ c sign d ds,
    cs = c :: (sign ++ d :: ds) ∧ (c = 'e' ∨ c = 'E') ∧
    (sign = [] ∨ sign = ['+'] ∨ sign = ['-']) ∧ d.isDigit := by
  cases cs with
  | nil => exact absurd rfl h
  | cons c rest =>
    have hexponent : (c = 'e' ∨ c = 'E') ∧ (rest.drop (if rest.head? = some '+' ∨
        rest.head? = some '-' then 1 else 0)).head?.any Char.isDigit := by
      by_contra hnone
      exact h (if_neg hnone)
    obtain ⟨hc, hdigit⟩ := hexponent
    obtain ⟨d, ds, hds, hd⟩ := any_head?_iff.1 hdigit
    split at hds
    · rename_i hsign
      cases rest with
      | nil => simp at hsign
      | cons sign rest =>
        obtain rfl : rest = d :: ds := hds
        refine ⟨c, [sign], d, ds, rfl, hc, .inr ?_, hd⟩
        simpa using hsign
    · obtain rfl : rest = d :: ds := hds
      exact ⟨c, [], d, ds, rfl, hc, .inl rfl, hd⟩

theorem exists_exponentRun (cs : List Char) : ∃ run after, cs = run ++ after ∧
    exponentRun cs = run.length ∧ (∀ c ∈ run.head?, c = 'e' ∨ c = 'E') ∧
    ∀ rest, Apart rest → exponentRun (run ++ rest) = run.length := by
  by_cases h : exponentRun cs = 0
  · refine ⟨[], cs, rfl, h, ?_, fun rest hrest => ?_⟩
    · rintro _ ⟨⟩
    · cases rest with
      | nil => rfl
      | cons c rest =>
        obtain rfl := hrest c rfl
        simp [exponentRun]
  · obtain ⟨c, sign, d, ds, rfl, hc, hsign, hd⟩ := exponent_of_exponentRun_ne_zero h
    obtain ⟨run, after, rfl, hlength, hrun⟩ := exists_digitRun ds
    refine ⟨c :: (sign ++ d :: run), after, by simp, ?_, ?_, fun rest hrest => ?_⟩
    · rw [exponentRun_signed hc hsign hd, digitRun_cons hd, hlength]
      simp
      omega
    · rintro _ ⟨⟩
      exact hc
    · have happend : c :: (sign ++ d :: run) ++ rest = c :: (sign ++ d :: (run ++ rest)) := by simp
      rw [happend, exponentRun_signed hc hsign hd, digitRun_cons hd, hrun rest hrest.stopsDigits]
      simp
      omega

theorem exists_radixRun (radix : Nat) (started : Bool) (cs : List Char) : ∃ run after,
    cs = run ++ after ∧ radixRun radix started cs = run.length ∧
    ∀ rest, Apart rest → radixRun radix started (run ++ rest) = run.length := by
  have hspace : ∀ started rest, Apart rest → radixRun radix started rest = 0 := by
    intro started rest hrest
    cases rest with
    | nil => rfl
    | cons c rest =>
      obtain rfl := hrest c rfl
      simp [radixRun, Number.digit?]
  fun_induction radixRun radix started cs with
  | case1 => exact ⟨[], [], rfl, rfl, hspace _⟩
  | case2 started c cs hc ih =>
    obtain ⟨run, after, rfl, hlength, hrun⟩ := ih
    refine ⟨c :: run, after, rfl, congrArg (· + 1) hlength, fun rest hrest => ?_⟩
    rw [List.cons_append, radixRun, if_pos hc, hrun rest hrest, List.length_cons]
  | case3 started c cs hc => exact ⟨[], _, rfl, rfl, hspace _⟩

/-- The body of a string that is closed, and its closing quote. -/
theorem exists_bodyRun {quote : Char} {n : Nat} (hback : quote ≠ '\\') (hline : quote ≠ '\n')
    (h : bodyRun quote cs = (n, .quote)) : ∃ body after, cs = body ++ quote :: after ∧
    n = body.length ∧ ∀ rest, bodyRun quote (body ++ quote :: rest) = (body.length, .quote) := by
  fun_induction bodyRun quote cs generalizing n with
  | case1 => cases h
  | case2 cs m stop heq ih =>
    obtain ⟨rfl, rfl⟩ := Prod.mk.inj h
    obtain ⟨body, after, rfl, rfl, hbody⟩ := ih heq
    refine ⟨'\\' :: '\r' :: '\n' :: body, after, rfl, rfl, fun rest => ?_⟩
    rw [List.cons_append, List.cons_append, List.cons_append, bodyRun, hbody]
    rfl
  | case3 c cs hcrlf m stop heq ih =>
    obtain ⟨rfl, rfl⟩ := Prod.mk.inj h
    obtain ⟨body, after, rfl, rfl, hbody⟩ := ih heq
    refine ⟨'\\' :: c :: body, after, rfl, rfl, fun rest => ?_⟩
    have hnext : c = '\r' → (body ++ quote :: rest).head? ≠ some '\n' := by
      rintro rfl hhead
      cases body with
      | nil => exact hline (Option.some.inj hhead)
      | cons d body =>
        obtain rfl : d = '\n' := Option.some.inj hhead
        exact hcrlf _ rfl rfl
    rw [List.cons_append, List.cons_append, bodyRun_escape hnext, hbody]
    rfl
  | case4 cs =>
    obtain ⟨rfl, -⟩ := Prod.mk.inj h
    exact ⟨[], cs, rfl, rfl, fun rest => bodyRun_quote hback rest⟩
  | case5 => cases h
  | case6 c cs _ hescape hquote hnewline m stop heq ih =>
    obtain ⟨rfl, rfl⟩ := Prod.mk.inj h
    obtain ⟨body, after, rfl, rfl, hbody⟩ := ih heq
    -- A backslash without anything after it does not end with a quote.
    have hplain : c ≠ '\\' := by
      obtain ⟨d, ds, hds⟩ : ∃ d ds, body ++ quote :: after = d :: ds :=
        List.exists_cons_of_ne_nil (by simp)
      exact fun hc => hescape d ds hc hds
    refine ⟨c :: body, after, rfl, rfl, fun rest => ?_⟩
    rw [List.cons_append, bodyRun_plain hplain hquote hnewline, hbody]
    rfl

/-! ## Tokens of one kind -/

/-- What a scan takes as a token without faults, it takes as the same token wherever something
stands apart after it. -/
def StandsAlone (f : List Char → Scan) : Prop :=
  ∀ ⦃cs k n⦄, f cs = ⟨some k, n, []⟩ → ∃ more after, cs = more ++ after ∧ n = more.length ∧
    ∀ rest, Apart rest → f (more ++ rest) = ⟨some k, more.length, []⟩

theorem not_isNamePart_space : isNamePart ' ' = false := by decide +kernel

theorem not_isNameStart_space : isNameStart ' ' = false := by decide +kernel

theorem standsAlone_scanWord (c : Char) : StandsAlone (scanWord c) := by
  intro cs k n h
  obtain ⟨more, after, rfl, hlength, hmore, hafter⟩ := split_takeWhile isNamePart cs
  have hstop : (after.head?.any isNamePart) = false := by
    cases after with
    | nil => rfl
    | cons x after => simpa using hafter x rfl
  rw [scanWord_of_closes hmore hstop] at h
  obtain ⟨rfl, rfl⟩ : TokenKind.ofWord (String.ofList (c :: more)) = k ∧ more.length = n := by
    simpa using h
  exact ⟨more, after, rfl, rfl, fun rest hrest =>
    scanWord_of_closes hmore (hrest.any_eq_false not_isNamePart_space)⟩

theorem exists_scanString {quote : Char} {kind : Option TokenKind} {n : Nat} (hback : quote ≠ '\\')
    (hline : quote ≠ '\n') (h : scanString quote cs = ⟨kind, n, []⟩) : ∃ more after,
      cs = more ++ after ∧ n = more.length ∧ ∀ rest,
        scanString quote (more ++ rest) = ⟨kind, more.length, []⟩ := by
  obtain ⟨m, stop, hstop⟩ : ∃ m stop, bodyRun quote cs = (m, stop) := ⟨_, _, rfl⟩
  cases stop with
  | quote =>
    obtain ⟨body, after, rfl, rfl, hbody⟩ := exists_bodyRun hback hline hstop
    rw [scanString_of_bodyRun (hbody after)] at h
    have hlength : n = (body ++ [quote]).length := by
      obtain ⟨-, hn, -⟩ := Scan.mk.inj h
      simp [← hn]
    refine ⟨body ++ [quote], after, by simp, hlength, fun rest => ?_⟩
    rw [List.append_assoc, List.singleton_append, scanString_of_bodyRun (hbody rest), h, hlength]
  | newline | eof =>
    -- Such a string is faulty.
    simp [scanString, hstop] at h

theorem standsAlone_scanString {quote : Char} (hback : quote ≠ '\\') (hline : quote ≠ '\n') :
    StandsAlone (scanString quote) := by
  intro cs k n h
  obtain ⟨more, after, hcs, hlength, hmore⟩ := exists_scanString hback hline h
  exact ⟨more, after, hcs, hlength, fun rest _ => hmore rest⟩

/-! ### Numbers -/

theorem eq_of_finishNumber {text : List Char} {more n : Nat} {value : Float} {f : LexicalFault}
    {faulty : Bool} {k : TokenKind} (h : finishNumber text more value f faulty = ⟨some k, n, []⟩) :
    faulty = false ∧ k = .number value ∧ n = more := by
  cases faulty with
  | true => cases (Scan.mk.inj h).2.2
  | false =>
    obtain ⟨hk, hn, -⟩ := Scan.mk.inj h
    exact ⟨rfl, (Option.some.inj hk).symm, hn.symm⟩

theorem standsAlone_scanRadix {radix : Nat} {x : Char} {n : Nat} {k : TokenKind}
    (h : scanRadix radix (c :: x :: cs) = ⟨some k, n, []⟩) : ∃ run after, cs = run ++ after ∧
      n = (x :: run).length ∧ ∀ rest, Apart rest →
        scanRadix radix (c :: x :: (run ++ rest)) = ⟨some k, (x :: run).length, []⟩ := by
  obtain ⟨run, after, rfl, hlength, hrun⟩ := exists_radixRun radix false cs
  have hspace : Char.isAlphanum ' ' = false := by decide
  rw [scanRadix] at h
  simp only [List.drop_succ_cons, List.drop_zero, hlength, List.take_left, List.drop_left] at h
  obtain ⟨hfaulty, rfl, rfl⟩ := eq_of_finishNumber h
  refine ⟨run, after, rfl, rfl, fun rest hrest => ?_⟩
  rw [Bool.or_eq_false_iff] at hfaulty
  rw [scanRadix]
  simp only [List.drop_succ_cons, List.drop_zero, hrun rest hrest, List.take_left, List.drop_left,
    hfaulty.1, hrest.any_eq_false hspace, Bool.or_false]
  rfl

theorem stopsDigits_append {run : List Char} (hrun : ∀ c ∈ run.head?, c.isDigit = false ∧ c ≠ '_')
    (hrest : StopsDigits rest) : StopsDigits (run ++ rest) := by
  cases run with
  | nil => exact hrest
  | cons c run => exact hrun

theorem standsAlone_scanDecimal (c : Char) : StandsAlone (scanDecimal c) := by
  intro cs k n h
  obtain ⟨int, tail, rfl, hint, hints⟩ := exists_digitRun cs
  -- After a point there is no other fraction.
  obtain ⟨frac, tail', rfl, hfrac, hpoint, hfracs⟩ : ∃ frac tail', tail = frac ++ tail' ∧
      (if c = '.' then 0 else fractionRun tail) = frac.length ∧ (∀ c ∈ frac.head?, c = '.') ∧
      ∀ rest, StopsDigits rest → rest.head? ≠ some '.' →
        (if c = '.' then 0 else fractionRun (frac ++ rest)) = frac.length := by
    by_cases hc : c = '.'
    · exact ⟨[], tail, rfl, if_pos hc, by rintro _ ⟨⟩, fun _ _ _ => if_pos hc⟩
    · simpa only [if_neg hc] using exists_fractionRun tail
  obtain ⟨power, after, rfl, hpower, hletter, hpowers⟩ := exists_exponentRun tail'
  have htext : ∀ rest, int ++ (frac ++ (power ++ rest)) = int ++ (frac ++ power) ++ rest := by simp
  rw [htext, scanDecimal_of_runs hint hfrac hpower] at h
  obtain ⟨-, rfl, rfl⟩ := eq_of_finishNumber h
  refine ⟨int ++ (frac ++ power), after, htext after, rfl, fun rest hrest => ?_⟩
  have hstops : StopsDigits (power ++ rest) :=
    stopsDigits_append (fun x hx => by rcases hletter x hx with rfl | rfl <;> decide)
      hrest.stopsDigits
  have hstops' : StopsDigits (frac ++ (power ++ rest)) :=
    stopsDigits_append (fun x hx => by obtain rfl := hpoint x hx; decide) hstops
  have hne : (power ++ rest).head? ≠ some '.' := by
    cases power with
    | nil => exact hrest.ne_head (by decide)
    | cons x power =>
      rintro ⟨⟩
      exact absurd (hletter '.' rfl) (by decide)
  rw [scanDecimal_of_runs (hints _ hstops') (hfracs _ hstops hne) (hpowers rest hrest),
    hrest.any_eq_false not_isNameStart_space]
  rfl

/-- The next character of a text that is cut and goes on apart is the one it was, or none that a
token goes on with. -/
theorem head?_append_or_apart (more after : List Char) (hrest : Apart rest) :
    (more ++ rest).head? = (more ++ after).head? ∨ Apart (more ++ rest) := by
  cases more with
  | nil => exact .inr hrest
  | cons x more => exact .inl rfl

theorem scanNumber_eq_scanDecimal (h : c = '0' → cs.head?.bind radix? = none) :
    scanNumber c cs = scanDecimal c cs := by
  unfold scanNumber
  split
  · rename_i hradix
    exact if_neg fun hc => by simp [h hc] at hradix
  · rfl

theorem scanNumber_eq_scanRadix {x : Char} {radix : Nat} (hx : radix? x = some radix)
    (cs : List Char) : scanNumber '0' (x :: cs) = scanRadix radix ('0' :: x :: cs) := by
  simp [scanNumber, hx]

theorem standsAlone_scanNumber (c : Char) : StandsAlone (scanNumber c) := by
  intro cs k n h
  by_cases hdecimal : c = '0' → cs.head?.bind radix? = none
  · rw [scanNumber_eq_scanDecimal hdecimal] at h
    obtain ⟨more, after, rfl, hlength, hmore⟩ := standsAlone_scanDecimal c h
    refine ⟨more, after, rfl, hlength, fun rest hrest => ?_⟩
    rw [← hmore rest hrest]
    refine scanNumber_eq_scanDecimal fun hc => ?_
    rcases head?_append_or_apart more after hrest with hhead | hapart
    · rw [hhead, hdecimal hc]
    · cases hnext : (more ++ rest).head? with
      | none => rfl
      | some x =>
        obtain rfl := hapart x hnext
        rfl
  · obtain ⟨rfl, hradix⟩ := Classical.not_imp.1 hdecimal
    obtain ⟨radix, hradix⟩ := Option.ne_none_iff_exists'.1 hradix
    obtain ⟨x, hx, hradix⟩ := Option.bind_eq_some_iff.1 hradix
    obtain ⟨cs, rfl⟩ := List.head?_eq_some_iff.1 hx
    rw [scanNumber_eq_scanRadix hradix] at h
    obtain ⟨run, after, rfl, hlength, hrun⟩ := standsAlone_scanRadix h
    refine ⟨x :: run, after, rfl, hlength, fun rest hrest => ?_⟩
    rw [List.cons_append, scanNumber_eq_scanRadix hradix, hrun rest hrest]

theorem le_more_finishNumber (text : List Char) (more : Nat) (value : Float) (f : LexicalFault)
    (faulty : Bool) : more ≤ (finishNumber text more value f faulty).more := by
  cases faulty with
  | true => exact Nat.le_add_right _ _
  | false => exact Nat.le_refl _

/-- A number that starts with a point takes the digit after it. -/
theorem more_scanNumber_point (hdigit : cs.head?.any Char.isDigit) :
    0 < (scanNumber '.' cs).more := by
  obtain ⟨d, ds, rfl, hd⟩ := any_head?_iff.1 hdigit
  rw [scanNumber_eq_scanDecimal fun hzero => absurd hzero (by decide)]
  refine Nat.lt_of_lt_of_le ?_ (le_more_finishNumber ..)
  rw [if_pos rfl, digitRun_cons hd]
  omega

/-! ### Marks -/

namespace Mark

/-- No mark goes on with a space, so that a mark before one is the longest one there. -/
theorem longest?_spelling (m : Mark) (hrest : Apart rest) :
    longest? (m.spelling.toList ++ rest) = some m := by
  cases rest with
  | nil => cases m <;> rfl
  | cons c rest =>
    obtain rfl := hrest c rfl
    cases m <;> rfl

theorem spelling_ne_nil (m : Mark) : m.spelling.toList ≠ [] := by
  cases m <;> exact List.cons_ne_nil _ _

theorem exists_of_longest? {m : Mark} (h : longest? cs = some m) :
    ∃ after, cs = m.spelling.toList ++ after := by
  have hfits := List.find?_some h
  rw [fits, Bool.and_eq_true] at hfits
  obtain ⟨after, hafter⟩ := List.isPrefixOf_iff_prefix.1 hfits.1
  exact ⟨after, hafter.symm⟩

end Mark

/-! ## Tokens of all kinds -/

/-- Nothing that is skipped stands at the front of the text `c :: cs`. -/
structure Visible (c : Char) (cs : List Char) : Prop where
  blank : Text.isBlank c = false
  comment : c = '/' → cs.head? ≠ some '/' ∧ cs.head? ≠ some '*'

theorem Visible.scan_eq (h : Visible c cs) : scan c cs =
    if c = '"' ∨ c = '\'' then scanString c cs
    else if c.isDigit ∨ (c = '.' ∧ cs.head?.any Char.isDigit) then scanNumber c cs
    else if isNameStart c then scanWord c cs
    else
      match Mark.longest? (c :: cs) with
      | some m => ⟨some (.mark m), m.spelling.length - 1, []⟩
      | none => .fault (c :: cs) 0 (.unexpectedCharacter c) := by
  have hline : ¬(c = '/' ∧ cs.head? = some '/') := fun hslash => (h.comment hslash.1).1 hslash.2
  have hblock : ¬(c = '/' ∧ cs.head? = some '*') := fun hstar => (h.comment hstar.1).2 hstar.2
  have hblank : ¬Text.isBlank c := by simp [h.blank]
  exact (if_neg hblank).trans ((if_neg hline).trans (if_neg hblock))

theorem Visible.of_scan {k : TokenKind} {n : Nat} (h : scan c cs = ⟨some k, n, []⟩) :
    Visible c cs := by
  unfold scan at h
  split at h
  · cases (Scan.mk.inj h).1
  rename_i hblank
  split at h
  · cases (Scan.mk.inj h).1
  rename_i hline
  split at h
  · split at h
    · cases (Scan.mk.inj h).1
    · cases (Scan.mk.inj h).2.2
  rename_i hblock
  exact ⟨Bool.eq_false_iff.2 hblank, fun hc =>
    ⟨fun hslash => hline ⟨hc, hslash⟩, fun hstar => hblock ⟨hc, hstar⟩⟩⟩

/-- Cutting a text where something stands apart makes no comment of its front. -/
theorem Visible.cut {more after : List Char} (h : Visible c (more ++ after)) (hrest : Apart rest) :
    Visible c (more ++ rest) := by
  refine ⟨h.blank, fun hc => ?_⟩
  rcases head?_append_or_apart more after hrest with hhead | hapart
  · rw [hhead]
    exact h.comment hc
  · exact ⟨hapart.ne_head (by decide), hapart.ne_head (by decide)⟩

/-- **A token stands alone.** -/
theorem standsAlone_scan (c : Char) : StandsAlone (scan c) := by
  intro cs k n h
  have hvisible := Visible.of_scan h
  rw [hvisible.scan_eq] at h
  split at h
  · rename_i hquote
    have hback : c ≠ '\\' := by rcases hquote with rfl | rfl <;> decide
    have hline : c ≠ '\n' := by rcases hquote with rfl | rfl <;> decide
    obtain ⟨more, after, rfl, hlength, hmore⟩ := standsAlone_scanString hback hline h
    refine ⟨more, after, rfl, hlength, fun rest hrest => ?_⟩
    rw [(hvisible.cut hrest).scan_eq, if_pos hquote, hmore rest hrest]
  rename_i hquote
  split at h
  · rename_i hnumber
    obtain ⟨more, after, rfl, hlength, hmore⟩ := standsAlone_scanNumber c h
    refine ⟨more, after, rfl, hlength, fun rest hrest => ?_⟩
    have hstart : c.isDigit ∨ (c = '.' ∧ (more ++ rest).head?.any Char.isDigit) := by
      refine hnumber.imp_right fun ⟨hc, hdigit⟩ => ⟨hc, ?_⟩
      subst hc
      have hpos := more_scanNumber_point hdigit
      rw [h, hlength] at hpos
      obtain ⟨x, more, rfl⟩ := List.exists_cons_of_ne_nil (List.ne_nil_of_length_pos hpos)
      exact hdigit
    rw [(hvisible.cut hrest).scan_eq, if_neg hquote, if_pos hstart, hmore rest hrest]
  rename_i hnumber
  have hstart : ∀ more after rest, cs = more ++ after → Apart rest →
      ¬(c.isDigit ∨ (c = '.' ∧ (more ++ rest).head?.any Char.isDigit)) := by
    rintro more after rest rfl hrest (hc | ⟨hc, hdigit⟩)
    · exact hnumber (.inl hc)
    rcases head?_append_or_apart more after hrest with hhead | hapart
    · rw [hhead] at hdigit
      exact hnumber (.inr ⟨hc, hdigit⟩)
    · rw [hapart.any_eq_false (by decide)] at hdigit
      cases hdigit
  split at h
  · rename_i hname
    obtain ⟨more, after, rfl, hlength, hmore⟩ := standsAlone_scanWord c h
    refine ⟨more, after, rfl, hlength, fun rest hrest => ?_⟩
    rw [(hvisible.cut hrest).scan_eq, if_neg hquote, if_neg (hstart more after rest rfl hrest),
      if_pos hname, hmore rest hrest]
  rename_i hname
  split at h
  · rename_i m hmark
    obtain ⟨after, hspelling⟩ := Mark.exists_of_longest? hmark
    obtain ⟨d, more, hm⟩ := List.exists_cons_of_ne_nil m.spelling_ne_nil
    rw [hm] at hspelling
    obtain ⟨rfl, rfl⟩ : c = d ∧ cs = more ++ after := List.cons.inj hspelling
    obtain ⟨⟨rfl⟩, rfl, -⟩ := Scan.mk.inj h
    have hlength : m.spelling.length - 1 = more.length := by
      rw [← String.length_toList, hm]
      rfl
    refine ⟨more, after, rfl, hlength, fun rest hrest => ?_⟩
    have hlongest : Mark.longest? (c :: (more ++ rest)) = some m := by
      rw [← List.cons_append, ← hm]
      exact m.longest?_spelling hrest
    rw [(hvisible.cut hrest).scan_eq, if_neg hquote, if_neg (hstart more after rest rfl hrest),
      if_neg hname, hlongest, ← hlength]
  · cases (Scan.mk.inj h).2.2

end ScriptFold
