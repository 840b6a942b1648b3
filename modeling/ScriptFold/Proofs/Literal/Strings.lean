import ScriptFold.Proofs.Literal.Compact

/-!
Strings of JSON texts as tokens.

The escapes that JSON texts use for quotes, backslashes and control characters stand for the same
characters in a source text, and no other character ends a string or its line.
-/

namespace ScriptFold

/-! ## Bodies -/

section Bodies

variable {quote c : Char} {cs : List Char}

theorem bodyRun_escape (h : c = '\r' → cs.head? ≠ some '\n') :
    bodyRun quote ('\\' :: c :: cs) = ((bodyRun quote cs).1 + 2, (bodyRun quote cs).2) := by
  rw [bodyRun]
  rintro ds rfl rfl
  exact absurd rfl (h rfl)

theorem bodyRun_plain (hback : c ≠ '\\') (hquote : c ≠ quote) (hline : c ≠ '\n') (cs : List Char) :
    bodyRun quote (c :: cs) = ((bodyRun quote cs).1 + 1, (bodyRun quote cs).2) := by
  rw [bodyRun, if_neg hquote, if_neg hline]
  all_goals
    intros
    contradiction

theorem bodyRun_quote (hback : quote ≠ '\\') (cs : List Char) :
    bodyRun quote (quote :: cs) = (0, .quote) := by
  rw [bodyRun, if_pos rfl]
  all_goals
    intros
    contradiction

theorem bodyRun_append_plain {ds : List Char} (h : ∀ d ∈ ds, d ≠ quote ∧ d ≠ '\n' ∧ d ≠ '\\')
    (cs : List Char) :
    bodyRun quote (ds ++ cs) = ((bodyRun quote cs).1 + ds.length, (bodyRun quote cs).2) := by
  induction ds with
  | nil => rfl
  | cons d ds ih =>
    obtain ⟨⟨hquote, hline, hback⟩, hds⟩ := List.forall_mem_cons.1 h
    rw [List.cons_append, bodyRun_plain hback hquote hline, ih hds, List.length_cons, Nat.add_assoc]

/-- In the body of a string with this quote, the text stands for a character. -/
structure Denotes (quote c : Char) (cs : List Char) : Prop where
  run : ∀ t, bodyRun quote (cs ++ t) = ((bodyRun quote t).1 + cs.length, (bodyRun quote t).2)
  read : ∀ pos t, ∃ pos', readBody pos (cs ++ t) = (c :: (readBody pos' t).1, (readBody pos' t).2)

theorem denotes_plain (hquote : c ≠ quote) (hline : c ≠ '\n') (hback : c ≠ '\\') :
    Denotes quote c [c] where
  run t := bodyRun_plain hback hquote hline t
  read pos t := by
    refine ⟨pos + c.utf8Size, ?_⟩
    rw [List.singleton_append, readBody, if_neg hback]

theorem denotes_escape {d : Char} {ds : List Char}
    (hread : ∀ t, readEscape (d :: ds ++ t) = (.char c, (d :: ds).length)) (hd : d ≠ '\r')
    (hds : ∀ x ∈ ds, x ≠ quote ∧ x ≠ '\n' ∧ x ≠ '\\') : Denotes quote c ('\\' :: d :: ds) where
  run t := by
    rw [List.cons_append, List.cons_append, bodyRun_escape fun h => absurd h hd,
      bodyRun_append_plain hds]
    simp [Nat.add_assoc]
  read pos t := by
    refine ⟨pos + 1 + byteLength (d :: ds), ?_⟩
    rw [List.cons_append, readBody, if_pos rfl, hread]
    simp only [List.take_left, List.drop_left]

/-- The body of a string takes all that stands for characters up to the closing quote. -/
theorem bodyRun_of_denotes {parts : List (List Char)} (hback : quote ≠ '\\')
    (h : List.Forall₂ (Denotes quote) cs parts) (rest : List Char) :
    bodyRun quote (parts.flatten ++ quote :: rest) = (parts.flatten.length, .quote) := by
  induction h with
  | nil => exact bodyRun_quote hback rest
  | cons hc _ ih =>
    rw [List.flatten_cons, List.append_assoc, hc.run, ih, List.length_append, Nat.add_comm]

theorem readBody_of_denotes {parts : List (List Char)} (pos : Nat)
    (h : List.Forall₂ (Denotes quote) cs parts) : readBody pos parts.flatten = (cs, []) := by
  induction h generalizing pos with
  | nil => rw [List.flatten_nil, readBody]
  | cons hc _ ih =>
    obtain ⟨pos', hread⟩ := hc.read pos _
    rw [List.flatten_cons, hread, ih]

theorem scanString_of_bodyRun {body rest : List Char}
    (h : bodyRun quote (body ++ quote :: rest) = (body.length, .quote)) :
    scanString quote (body ++ quote :: rest) =
      ⟨some (if (readBody quote.utf8Size body).2 = [] then
          .string (String.ofList (readBody quote.utf8Size body).1) else .error),
        body.length + 1, (readBody quote.utf8Size body).2⟩ := by
  rw [scanString, h]
  simp only [List.take_left]

theorem scanString_of_denotes {parts : List (List Char)} (hback : quote ≠ '\\')
    (h : List.Forall₂ (Denotes quote) cs parts) (rest : List Char) :
    scanString quote (parts.flatten ++ quote :: rest) =
      ⟨some (.string (String.ofList cs)), parts.flatten.length + 1, []⟩ := by
  rw [scanString_of_bodyRun (bodyRun_of_denotes hback h rest), readBody_of_denotes _ h]
  rfl

end Bodies

/-! ## Strings of JSON texts -/

theorem digit_digitChar : ∀ n < 16, Number.digit? 16 (Nat.digitChar n) = some n := by decide

/-- Four hexadecimal digits of which two may differ from zero. -/
theorem readEscape_unicode {x y : Char} {i j : Nat} (hx : Number.digit? 16 x = some i)
    (hy : Number.digit? 16 y = some j) (t : List Char) :
    readEscape ('u' :: '0' :: '0' :: x :: y :: t) = (.char (charOfCode (16 * i + j)), 5) := by
  have hzero : Number.digit? 16 '0' = some 0 := by decide
  have hread : readEscape ('u' :: '0' :: '0' :: x :: y :: t) =
      fixedEscape 4 ('0' :: '0' :: x :: y :: t) := rfl
  rw [hread]
  simp [fixedEscape, isHexDigit, hzero, hx, hy, ofHexDigits]

theorem charOfCode_toNat (c : Char) : charOfCode c.toNat = c := by
  unfold charOfCode
  rw [if_pos (show c.toNat.isValidChar from c.valid), Char.ofNat_toNat]

theorem denotes_letter {c d : Char} (h : ∀ t, readEscape (d :: t) = (.char c, 1))
    (hd : d ≠ '\r') : Denotes '"' c ['\\', d] := denotes_escape h hd (by simp)

theorem ne_of_digit? {radix n : Nat} {c d : Char} (hc : Number.digit? radix c = some n)
    (hd : Number.digit? radix d = none) : c ≠ d := by
  rintro rfl
  cases hc.symm.trans hd

/-- What stands for a character in a JSON text denotes it. -/
theorem denotes_of_escapes {c : Char} {cs : List Char} (h : Json.Escapes c cs) :
    Denotes '"' c cs := by
  cases h with
  | plain hquote hback hcontrol =>
    refine denotes_plain hquote ?_ hback
    rintro rfl
    exact absurd hcontrol (by decide)
  | quote | backslash | backspace | tab | lineFeed | formFeed | carriageReturn =>
    exact denotes_letter (fun t => rfl) (by decide)
  | control hx hy hc hcontrol =>
    refine denotes_escape (fun t => ?_) (by decide) ?_
    · rw [← charOfCode_toNat c, hc]
      exact readEscape_unicode hx hy t
    · have hplain {d : Char} {n : Nat} (hd : Number.digit? 16 d = some n) :
          d ≠ '"' ∧ d ≠ '\n' ∧ d ≠ '\\' :=
        ⟨ne_of_digit? hd (by decide), ne_of_digit? hd (by decide), ne_of_digit? hd (by decide)⟩
      have hzero : Number.digit? 16 '0' = some 0 := by decide
      simp only [List.forall_mem_cons, List.not_mem_nil, false_implies, implies_true, and_true]
      exact ⟨hplain hzero, hplain hzero, hplain hx, hplain hy⟩

theorem scan_string {s : String} {parts : List (List Char)}
    (h : List.Forall₂ Json.Escapes s.toList parts) (rest : List Char) :
    scan '"' (parts.flatten ++ '"' :: rest) =
      ⟨some (.string s), parts.flatten.length + 1, []⟩ := by
  have hscan : ∀ cs, scan '"' cs = scanString '"' cs := fun cs => rfl
  have hparts : List.Forall₂ (Denotes '"') s.toList parts := h.imp fun _ _ => denotes_of_escapes
  rw [hscan, scanString_of_denotes (by decide) hparts, String.ofList_toList]

end ScriptFold
