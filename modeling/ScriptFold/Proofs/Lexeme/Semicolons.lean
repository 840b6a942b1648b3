import ScriptFold.Proofs.Lexeme.StandsAlone

/-!
Pieces before a semicolon.

Runs of digits, of blanks and of the characters of names stop at a semicolon, and no mark has one
in it. Strings and comments may take semicolons in, but then they end after them. So a piece that
ends before a semicolon is the same piece whatever follows the semicolon.
-/

namespace ScriptFold

variable {c : Char} {x : List Char}

/-! ## Runs -/

/-- The run ends before a semicolon and does not look past it. -/
def Stops (run : List Char → Nat) : Prop := ∀ x, ∃ n ≤ x.length, ∀ y, run (x ++ ';' :: y) = n

theorem head?_append_semicolon (x y : List Char) :
    (x ++ ';' :: y).head? = x.head?.or (some ';') := by
  rw [List.head?_append, List.head?_cons]

theorem drop_append_semicolon {n : Nat} (h : n ≤ x.length) (y : List Char) :
    (x ++ ';' :: y).drop n = x.drop n ++ ';' :: y := List.drop_append_of_le_length h

theorem takeWhile_append_semicolon {p : Char → Bool} (hp : p ';' = false) (x y : List Char) :
    (x ++ ';' :: y).takeWhile p = x.takeWhile p := by
  rw [List.takeWhile_append, List.takeWhile_cons_of_neg (by simp [hp]), List.append_nil]
  split
  · rename_i hall
    exact (List.takeWhile_prefix p).eq_of_length hall |>.symm
  · rfl

theorem stopsDigits_semicolon (y : List Char) : StopsDigits (';' :: y) := by
  rintro _ ⟨⟩
  decide

theorem digitRun_of_not_digit {cs : List Char} (hc : ¬c.isDigit)
    (hnext : c = '_' → cs.head?.any Char.isDigit = false) : digitRun (c :: cs) = 0 := by
  rw [digitRun.eq_def]
  split
  · rfl
  · rename_i d rest heq
    obtain ⟨rfl, rfl⟩ := List.cons.inj heq
    exact if_neg (by simpa using hnext rfl)
  · rename_i d rest _ heq
    obtain ⟨rfl, rfl⟩ := List.cons.inj heq
    exact if_neg hc

theorem stops_digitRun : Stops digitRun := by
  intro x
  fun_induction digitRun x with
  | case1 => exact ⟨0, Nat.le_refl 0, fun y => digitRun_of_stops (stopsDigits_semicolon y)⟩
  | case2 d x hd ih =>
    obtain ⟨n, hn, hrun⟩ := ih
    refine ⟨n + 1, Nat.succ_le_succ hn, fun y => ?_⟩
    have h := hrun y
    rw [List.cons_append] at h
    rw [List.cons_append, List.cons_append, digitRun, if_pos hd, h]
  | case3 d x hd => exact ⟨0, Nat.zero_le _, fun y => by simp [digitRun, hd]⟩
  | case4 c x _ hc ih =>
    obtain ⟨n, hn, hrun⟩ := ih
    exact ⟨n + 1, Nat.succ_le_succ hn, fun y => by rw [List.cons_append, digitRun_cons hc, hrun y]⟩
  | case5 c x hnext hc =>
    refine ⟨0, Nat.zero_le _, fun y => digitRun_of_not_digit hc fun hline => ?_⟩
    cases x with
    | nil => rfl
    | cons d x => exact (hnext d x hline rfl).elim

theorem stops_fractionRun : Stops fractionRun := by
  intro x
  by_cases hpoint : x.head? = some '.'
  · obtain ⟨x, rfl⟩ := List.head?_eq_some_iff.1 hpoint
    obtain ⟨n, hn, hrun⟩ := stops_digitRun x
    exact ⟨n + 1, Nat.succ_le_succ hn, fun y => congrArg (· + 1) (hrun y)⟩
  · refine ⟨0, Nat.zero_le _, fun y => fractionRun_of_ne_point ?_⟩
    rw [head?_append_semicolon]
    cases x with
    | nil => decide
    | cons d x => exact hpoint

theorem stops_exponentRun : Stops exponentRun := by
  intro x
  cases x with
  | nil => exact ⟨0, Nat.le_refl 0, fun y => by simp [exponentRun]⟩
  | cons c x =>
    have hsign : (if x.head?.or (some ';') = some '+' ∨ x.head?.or (some ';') = some '-' then 1
        else 0) ≤ x.length := by
      cases x with
      | nil => decide
      | cons d x =>
        split
        · exact Nat.succ_le_succ (Nat.zero_le _)
        · exact Nat.zero_le _
    generalize hsize : (if x.head?.or (some ';') = some '+' ∨ x.head?.or (some ';') = some '-'
      then 1 else 0) = sign at hsign
    obtain ⟨n, hn, hrun⟩ := stops_digitRun (x.drop sign)
    rw [List.length_drop] at hn
    have heq (y : List Char) : exponentRun (c :: (x ++ ';' :: y)) =
        if (c = 'e' ∨ c = 'E') ∧ ((x.drop sign).head?.or (some ';')).any Char.isDigit
        then n + sign + 1 else 0 := by
      simp only [exponentRun, head?_append_semicolon, hsize, drop_append_semicolon hsign, hrun y]
    refine ⟨_, ?_, heq⟩
    split
    · rw [List.length_cons]
      omega
    · exact Nat.zero_le _

theorem stops_radixRun (radix : Nat) (started : Bool) : Stops (radixRun radix started) := by
  intro x
  induction x generalizing started with
  | nil => exact ⟨0, Nat.le_refl 0, fun y => by simp [radixRun, Number.digit?]⟩
  | cons c x ih =>
    by_cases hc : (Number.digit? radix c).isSome ∨ (c = '_' ∧ started)
    · obtain ⟨n, hn, hrun⟩ := ih true
      refine ⟨n + 1, Nat.succ_le_succ hn, fun y => ?_⟩
      rw [List.cons_append, radixRun, if_pos hc, hrun y]
    · refine ⟨0, Nat.zero_le _, fun y => ?_⟩
      rw [List.cons_append, radixRun, if_neg hc]

/-! ## Scans -/

/-- What stops before a semicolon is followed by the rest of the text before it. -/
theorem split_of_append_semicolon {more after y : List Char} (h : more ++ after = x ++ ';' :: y)
    (hn : more.length ≤ x.length) : ∃ rest, x = more ++ rest ∧ after = rest ++ ';' :: y := by
  rcases List.append_eq_append_iff.1 h with ⟨rest, rfl, rfl⟩ | ⟨rest, rfl, hrest⟩
  · exact ⟨rest, rfl, rfl⟩
  · have hnil : rest = [] := by
      rw [List.length_append] at hn
      exact List.eq_nil_of_length_eq_zero (by omega)
    subst hnil
    exact ⟨[], by simp, by simpa using hrest.symm⟩

/-- What the scan takes without a fault before a semicolon, it takes whatever follows the
semicolon. -/
def Settles (scan : List Char → Scan) : Prop := ∀ ⦃x y kind n⦄,
  scan (x ++ ';' :: y) = ⟨kind, n, []⟩ → n ≤ x.length → ∀ z, scan (x ++ ';' :: z) = ⟨kind, n, []⟩

theorem settles_scanWord (c : Char) : Settles (scanWord c) := by
  intro x y kind n h hn z
  rw [← h]
  have hstop : isNamePart ';' = false := by decide +kernel
  have hwhile (w : List Char) : (x ++ ';' :: w).takeWhile isNamePart = x.takeWhile isNamePart :=
    takeWhile_append_semicolon hstop x w
  simp only [scanWord, hwhile]

theorem settles_scanString {quote : Char} (hback : quote ≠ '\\') (hline : quote ≠ '\n') :
    Settles (scanString quote) := by
  intro x y kind n h hn z
  obtain ⟨more, after, htext, rfl, hmore⟩ := exists_scanString hback hline h
  obtain ⟨rest, rfl, -⟩ := split_of_append_semicolon htext.symm hn
  rw [List.append_assoc]
  exact hmore _

/-! ### Numbers -/

theorem scan_eq_of_finishNumber {text text' : List Char} {more n : Nat} {value : Float}
    {f : LexicalFault} {faulty : Bool} {kind : Option TokenKind}
    (h : finishNumber text more value f faulty = ⟨kind, n, []⟩) :
    finishNumber text' more value f faulty = ⟨kind, n, []⟩ := by
  cases faulty with
  | true => cases (Scan.mk.inj h).2.2
  | false => exact h

theorem scanRadix_append_semicolon {radix : Nat} {d : Char} {x y : List Char}
    {kind : Option TokenKind} {n : Nat}
    (h : scanRadix radix (c :: d :: (x ++ ';' :: y)) = ⟨kind, n, []⟩) (z : List Char) :
    scanRadix radix (c :: d :: (x ++ ';' :: z)) = ⟨kind, n, []⟩ := by
  obtain ⟨m, hm, hrun⟩ := stops_radixRun radix false x
  have heq (w : List Char) : scanRadix radix (c :: d :: (x ++ ';' :: w)) =
      finishNumber (c :: d :: (x ++ ';' :: w)) (m + 1)
        ((Number.readRadix radix (withoutSeparators (x.take m))).getD 0.0) .invalidDigit
        (m = 0 || ((x.drop m).head?.or (some ';')).any Char.isAlphanum) := by
    simp only [scanRadix, List.drop_succ_cons, List.drop_zero, hrun w,
      List.take_append_of_le_length hm, drop_append_semicolon hm, head?_append_semicolon]
  rw [heq] at h ⊢
  exact scan_eq_of_finishNumber h

theorem settles_scanDecimal (c : Char) : Settles (scanDecimal c) := by
  intro x y kind n h hn z
  obtain ⟨int, hint, hints⟩ := stops_digitRun x
  obtain ⟨whole, hwhole, hwholes⟩ : ∃ whole ≤ x.length, ∀ w,
      (if c = '.' then int else int + fractionRun ((x ++ ';' :: w).drop int)) = whole := by
    by_cases hc : c = '.'
    · exact ⟨int, hint, fun w => if_pos hc⟩
    · obtain ⟨frac, hfrac, hfracs⟩ := stops_fractionRun (x.drop int)
      rw [List.length_drop] at hfrac
      refine ⟨int + frac, by omega, fun w => ?_⟩
      rw [if_neg hc, drop_append_semicolon hint, hfracs]
  obtain ⟨power, hpower, hpowers⟩ := stops_exponentRun (x.drop whole)
  rw [List.length_drop] at hpower
  have hall : whole + power ≤ x.length := by omega
  have heq (w : List Char) : scanDecimal c (x ++ ';' :: w) =
      finishNumber (c :: (x ++ ';' :: w)) (whole + power)
        ((Number.readUnsigned (withoutSeparators (c :: x.take (whole + power)))).getD 0.0)
        .identifierAfterNumber
        (((x.drop (whole + power)).head?.or (some ';')).any isNameStart) := by
    simp only [scanDecimal, hints w, hwholes w, drop_append_semicolon hwhole, hpowers w,
      List.take_append_of_le_length hall, drop_append_semicolon hall, head?_append_semicolon]
  rw [heq] at h ⊢
  exact scan_eq_of_finishNumber h

theorem settles_scanNumber (c : Char) : Settles (scanNumber c) := by
  intro x y kind n h hn z
  cases x with
  | nil =>
    have hdecimal (w : List Char) : scanNumber c (';' :: w) = scanDecimal c (';' :: w) :=
      scanNumber_eq_scanDecimal fun _ => rfl
    rw [List.nil_append, hdecimal] at h ⊢
    exact settles_scanDecimal c (x := []) h hn z
  | cons d x =>
    by_cases hdecimal : c = '0' → radix? d = none
    · have heq (w : List Char) : scanNumber c (d :: x ++ ';' :: w) =
          scanDecimal c (d :: x ++ ';' :: w) := scanNumber_eq_scanDecimal hdecimal
      rw [heq] at h ⊢
      exact settles_scanDecimal c h hn z
    · obtain ⟨rfl, hradix⟩ := Classical.not_imp.1 hdecimal
      obtain ⟨radix, hradix⟩ := Option.ne_none_iff_exists'.1 hradix
      rw [List.cons_append, scanNumber_eq_scanRadix hradix] at h ⊢
      exact scanRadix_append_semicolon h z

/-! ### Marks -/

theorem isPrefixOf_append_semicolon {cs : List Char} (h : ';' ∉ cs) (x y : List Char) :
    cs.isPrefixOf (x ++ ';' :: y) = cs.isPrefixOf x := by
  induction cs generalizing x with
  | nil => simp
  | cons c cs ih =>
    rw [List.mem_cons, not_or] at h
    cases x with
    | nil => simp [List.isPrefixOf, Ne.symm h.1]
    | cons d x => simp [List.isPrefixOf, ih h.2 x]

namespace Mark

theorem semicolon_notMem_spelling {m : Mark} (hm : m ≠ .semicolon) :
    ';' ∉ m.spelling.toList := by
  cases m <;> first | decide | exact absurd rfl hm

theorem fits_append_semicolon (m : Mark) (c : Char) (x y z : List Char) :
    m.fits (c :: (x ++ ';' :: y)) = m.fits (c :: (x ++ ';' :: z)) := by
  by_cases hm : m = .semicolon
  · subst hm
    simp [fits, spelling, List.isPrefixOf]
  have hprefix (w : List Char) : m.spelling.toList.isPrefixOf (c :: (x ++ ';' :: w)) =
      m.spelling.toList.isPrefixOf (c :: x) :=
    isPrefixOf_append_semicolon (semicolon_notMem_spelling hm) (c :: x) w
  rw [fits, fits, hprefix, hprefix]
  by_cases hquestion : m = .questionDot
  · subst hquestion
    cases x with
    | nil => simp [spelling, List.isPrefixOf]
    | cons d x => simp [List.head?_append]
  · simp [hquestion]

theorem longest?_append_semicolon (c : Char) (x y z : List Char) :
    longest? (c :: (x ++ ';' :: y)) = longest? (c :: (x ++ ';' :: z)) := by
  have hfits : (fun m : Mark => m.fits (c :: (x ++ ';' :: y))) =
      fun m => m.fits (c :: (x ++ ';' :: z)) := funext fun m => m.fits_append_semicolon c x y z
  rw [longest?, longest?, hfits]

end Mark

/-! ### Comments -/

/-- A line comment that ends before a semicolon ends with a line. -/
theorem takeWhile_append_of_length_le {p : Char → Bool} {y : List Char}
    (h : ((x ++ ';' :: y).takeWhile p).length ≤ x.length) (hp : p ';' = true) (z : List Char) :
    (x ++ ';' :: z).takeWhile p = (x ++ ';' :: y).takeWhile p := by
  rw [List.takeWhile_append] at h ⊢
  rw [List.takeWhile_append]
  split
  · rename_i hall
    rw [if_pos hall, List.takeWhile_cons_of_pos hp, List.length_append, List.length_cons] at h
    omega
  · rfl

/-- A block comment ends with the first closing mark, whatever follows it. -/
theorem blockCommentRun_append {body : List Char} (hbody : ¬['*', '/'] <:+: body)
    (rest : List Char) : blockCommentRun (body ++ '*' :: '/' :: rest) = some (body.length + 2) := by
  induction body with
  | nil => rfl
  | cons d body ih =>
    rw [List.infix_cons_iff, not_or] at hbody
    rw [List.cons_append, blockCommentRun, ih hbody.2]
    · rfl
    · rintro tail rfl heq
      cases body with
      | nil => exact absurd (List.cons.inj heq).1 (by decide)
      | cons d body =>
        obtain ⟨rfl, -⟩ := List.cons.inj heq
        exact hbody.1 ⟨body, rfl⟩

theorem exists_blockCommentRun {cs : List Char} {n : Nat} (h : blockCommentRun cs = some n) :
    ∃ comment after, cs = comment ++ after ∧ n = comment.length ∧
      ∀ rest, blockCommentRun (comment ++ rest) = some comment.length := by
  obtain ⟨body, after, rfl, rfl, hbody⟩ := split_of_blockCommentRun h
  refine ⟨body ++ ['*', '/'], after, by simp, by simp, fun rest => ?_⟩
  simpa using blockCommentRun_append hbody rest

/-! ## All pieces -/

theorem scan_semicolon (cs : List Char) : scan ';' cs = ⟨some (.mark .semicolon), 0, []⟩ := rfl

/-- **A piece that ends before a semicolon is the same piece whatever follows the semicolon.** -/
theorem settles_scan (c : Char) : Settles (scan c) := by
  intro x y kind n h hn z
  unfold scan at h ⊢
  rw [head?_append_semicolon] at h ⊢
  split
  · rename_i hblank
    rw [if_pos hblank] at h
    rwa [takeWhile_append_semicolon (by decide)] at h ⊢
  rename_i hblank
  rw [if_neg hblank] at h
  split
  · rename_i hline
    rw [if_pos hline] at h
    obtain ⟨rfl, rfl, -⟩ := Scan.mk.inj h
    rw [takeWhile_append_of_length_le hn (by decide)]
  rename_i hline
  rw [if_neg hline] at h
  split
  · rename_i hblock
    rw [if_pos hblock] at h
    split at h
    · rename_i m hrun
      obtain ⟨rfl, rfl, -⟩ := Scan.mk.inj h
      have hpos : 1 ≤ x.length := Nat.le_trans (Nat.succ_le_succ (Nat.zero_le m)) hn
      rw [drop_append_semicolon hpos] at hrun ⊢
      obtain ⟨body, after, htext, rfl, hbody⟩ := exists_blockCommentRun hrun
      obtain ⟨rest, hrest, -⟩ := split_of_append_semicolon htext.symm
        (by rw [List.length_drop]; omega)
      rw [hrest, List.append_assoc, hbody]
    · cases (Scan.mk.inj h).2.2
  rename_i hblock
  rw [if_neg hblock] at h
  split
  · rename_i hquote
    rw [if_pos hquote] at h
    have hback : c ≠ '\\' := by rcases hquote with rfl | rfl <;> decide
    have hnewline : c ≠ '\n' := by rcases hquote with rfl | rfl <;> decide
    exact settles_scanString hback hnewline h hn z
  rename_i hquote
  rw [if_neg hquote] at h
  split
  · rename_i hnumber
    rw [if_pos hnumber] at h
    exact settles_scanNumber c h hn z
  rename_i hnumber
  rw [if_neg hnumber] at h
  split
  · rename_i hname
    rw [if_pos hname] at h
    exact settles_scanWord c h hn z
  rename_i hname
  rw [if_neg hname, Mark.longest?_append_semicolon c x y z] at h
  split
  · rename_i m hmark
    rwa [hmark] at h
  · rename_i hmark
    rw [hmark] at h
    cases (Scan.mk.inj h).2.2

end ScriptFold
