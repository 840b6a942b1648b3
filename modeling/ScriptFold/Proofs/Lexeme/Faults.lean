import ScriptFold.Proofs.Lexeme.Tiling

/-!
Where the faults of a text lie.

A piece of a text has faults if and only if it is an error token, and they lie inside its text. As
the pieces do not overlap and no fault is empty, a diagnostic lies in the span of one token only.
-/

namespace ScriptFold

variable {c : Char} {cs text : List Char}

/-! ## Faults of pieces -/

/-- The diagnostic is about some of the bytes from `first` on and before `last`. -/
structure Diagnostic.LiesIn (d : Diagnostic) (first last : Nat) : Prop where
  le_start : first ≤ d.span.start
  nonempty : d.span.start < d.span.stop
  stop_le : d.span.stop ≤ last

theorem Diagnostic.LiesIn.mono {d : Diagnostic} {first last first' last' : Nat}
    (h : d.LiesIn first last) (hfirst : first' ≤ first) (hlast : last ≤ last') :
    d.LiesIn first' last' :=
  ⟨Nat.le_trans hfirst h.le_start, h.nonempty, Nat.le_trans h.stop_le hlast⟩

theorem Diagnostic.LiesIn.shift {d : Diagnostic} {last : Nat} (h : d.LiesIn 0 last) (n : Nat) :
    (d.shift n).LiesIn n (n + last) :=
  ⟨Nat.le_add_right _ _, Nat.add_lt_add_left h.nonempty n, Nat.add_le_add_left h.stop_le n⟩

theorem LexicalFault.span_diagnostic (f : LexicalFault) (s : Span) : (f.diagnostic s).span = s := by
  cases f <;> rfl

theorem LexicalFault.liesIn_diagnostic (f : LexicalFault) {s : Span} {first last : Nat}
    (hfirst : first ≤ s.start) (hlt : s.start < s.stop) (hlast : s.stop ≤ last) :
    (f.diagnostic s).LiesIn first last := by
  rw [← f.span_diagnostic s] at hfirst hlt hlast
  exact ⟨hfirst, hlt, hlast⟩

/-- The faults of a piece are those of an error token, inside its text. -/
structure Scan.Placed (s : Scan) (text : List Char) : Prop where
  error_iff : s.kind = some .error ↔ s.faults ≠ []
  inside : ∀ d ∈ s.faults, d.LiesIn 0 (byteLength (text.take (s.more + 1)))

/-- A piece without faults is no error token. -/
theorem placed_of_faultless {s : Scan} (hkind : s.kind ≠ some .error) (h : s.faults = []) :
    s.Placed text :=
  ⟨by simp [hkind, h], by simp [h]⟩

theorem placed_fault (c : Char) (cs : List Char) (more : Nat) (f : LexicalFault) :
    (Scan.fault (c :: cs) more f).Placed (c :: cs) := by
  refine ⟨⟨fun _ => List.cons_ne_nil _ _, fun _ => rfl⟩, List.forall_mem_singleton.2 ?_⟩
  exact f.liesIn_diagnostic (Nat.le_refl 0) (byteLength_pos (by simp)) (Nat.le_refl _)

theorem placed_finishNumber (c : Char) (cs : List Char) (more : Nat) (value : Float)
    (f : LexicalFault) (faulty : Bool) :
    (finishNumber (c :: cs) more value f faulty).Placed (c :: cs) := by
  cases faulty with
  | true => exact placed_fault c cs _ f
  | false => exact placed_of_faultless (by simp [finishNumber]) rfl

theorem placed_scanNumber (c : Char) (cs : List Char) : (scanNumber c cs).Placed (c :: cs) := by
  unfold scanNumber
  split
  · split
    · exact placed_finishNumber c cs _ _ _ _
    · exact placed_finishNumber c cs _ _ _ _
  · exact placed_finishNumber c cs _ _ _ _

/-! ### Strings -/

theorem byteLength_take_le (n : Nat) (cs : List Char) :
    byteLength (cs.take n) ≤ byteLength cs := by
  have h := byteLength_append (cs.take n) (cs.drop n)
  rw [List.take_append_drop] at h
  omega

theorem byteLength_take_mono {m n : Nat} (h : m ≤ n) (cs : List Char) :
    byteLength (cs.take m) ≤ byteLength (cs.take n) := by
  have hle := byteLength_take_le m (cs.take n)
  rwa [List.take_take, Nat.min_eq_left h] at hle

/-- The faults of escapes lie in the body of a string: from the backslash up to where the escape
was given up. -/
theorem liesIn_readBody (pos : Nat) (cs : List Char) :
    ∀ d ∈ (readBody pos cs).2, d.LiesIn pos (pos + byteLength cs) := by
  have hescape (rest : List Char) (n : Nat) : byteLength ('\\' :: rest) =
      1 + (byteLength (rest.take n) + byteLength (rest.drop n)) := by
    rw [← byteLength_append, List.take_append_drop]
    rfl
  fun_induction readBody pos cs with
  | case1 => simp
  | case2 pos rest n next value faults hrest c _ ih
  | case3 pos rest n next value faults hrest _ ih =>
    rw [hrest] at ih
    intro d hd
    rw [hescape rest n]
    exact (ih d hd).mono (by omega) (by omega)
  | case4 pos rest n next value faults hrest f _ ih =>
    rw [hrest] at ih
    rw [hescape rest n]
    refine List.forall_mem_cons.2 ⟨?_, fun d hd => (ih d hd).mono (by omega) (by omega)⟩
    exact f.liesIn_diagnostic (Nat.le_refl pos) (by dsimp only; omega) (by dsimp only; omega)
  | case5 pos c rest _ value faults hrest ih =>
    rw [hrest] at ih
    intro d hd
    rw [byteLength_cons]
    exact (ih d hd).mono (by omega) (by omega)

theorem placed_scanString (quote : Char) (cs : List Char) :
    (scanString quote cs).Placed (quote :: cs) := by
  unfold scanString
  generalize bodyRun quote cs = body
  obtain ⟨n, stop⟩ := body
  have hbody := liesIn_readBody quote.utf8Size (cs.take n)
  have hinside (more : Nat) (hmore : n ≤ more) : ∀ d ∈ (readBody quote.utf8Size (cs.take n)).2,
      d.LiesIn 0 (byteLength ((quote :: cs).take (more + 1))) := by
    have hle := byteLength_take_mono hmore cs
    intro d hd
    rw [List.take_succ_cons, byteLength_cons]
    exact (hbody d hd).mono (Nat.zero_le _) (by omega)
  have hunclosed (more : Nat) (hmore : n ≤ more) : Scan.Placed ⟨some .error, more,
      (readBody quote.utf8Size (cs.take n)).2 ++ [LexicalFault.unterminatedString.diagnostic
        ⟨0, quote.utf8Size + byteLength (cs.take more)⟩]⟩ (quote :: cs) := by
    refine ⟨by simp, fun d hd => ?_⟩
    rcases List.mem_append.1 hd with hd | hd
    · exact hinside more hmore d hd
    · obtain rfl := List.mem_singleton.1 hd
      have hpos := quote.utf8Size_pos
      exact LexicalFault.liesIn_diagnostic _ (Nat.le_refl 0) (by dsimp only; omega) (Nat.le_refl _)
  cases stop with
  | quote =>
    refine ⟨?_, hinside (n + 1) (by omega)⟩
    by_cases hfaults : (readBody quote.utf8Size (cs.take n)).2 = [] <;> simp [hfaults]
  | newline => exact hunclosed (n + 1) (by omega)
  | eof => exact hunclosed n (Nat.le_refl n)

/-! ### All pieces -/

theorem ofWord_ne_error (word : String) : TokenKind.ofWord word ≠ .error := by
  unfold TokenKind.ofWord
  split <;> simp

theorem placed_scan (c : Char) (cs : List Char) : (scan c cs).Placed (c :: cs) := by
  unfold scan
  split
  · exact placed_of_faultless (by simp) rfl
  split
  · exact placed_of_faultless (by simp) rfl
  split
  · split
    · exact placed_of_faultless (by simp) rfl
    · exact placed_fault c cs _ _
  split
  · exact placed_scanString c cs
  split
  · exact placed_scanNumber c cs
  split
  · refine placed_of_faultless (fun h => ?_) rfl
    exact ofWord_ne_error _ (Option.some.inj h)
  split
  · exact placed_of_faultless (by simp) rfl
  · exact placed_fault c cs _ _

/-- A piece of a text that is a row of pieces. -/
structure Lexeme.Placed (l : Lexeme) : Prop where
  error_iff : l.kind = some .error ↔ l.faults ≠ []
  inside : ∀ d ∈ l.faults, d.LiesIn 0 (byteLength l.text)

theorem placed_of_mem_lexemes (cs : List Char) : ∀ l ∈ lexemes cs, l.Placed := by
  fun_induction lexemes cs with
  | case1 => simp
  | case2 c cs s ih =>
    have hscan : s.Placed (c :: cs) := placed_scan c cs
    exact List.forall_mem_cons.2 ⟨⟨hscan.error_iff, hscan.inside⟩, ih⟩

/-! ## Faults of texts -/

/-- Exactly one of the tokens covers the span, and it is an error. -/
def OnlyErrorCovers (tokens : List Token) (s : Span) : Prop :=
  ∃ before t after, tokens = before ++ t :: after ∧ t.kind = .error ∧ t.span.contains s = true ∧
    ∀ u ∈ before ++ after, u.span.contains s = false

section Places

variable {ls : List Lexeme} {offset : Nat}

theorem le_start_place (offset : Nat) (ls : List Lexeme) :
    ∀ t ∈ (Lexed.place offset ls).tokens, offset ≤ t.span.start := by
  induction ls generalizing offset with
  | nil => simp [Lexed.place]
  | cons l ls ih =>
    intro t ht
    rw [Lexed.place, List.mem_append, Option.mem_toList] at ht
    rcases ht with ht | ht
    · obtain ⟨k, -, rfl⟩ := Option.map_eq_some_iff.1 ht
      exact Nat.le_refl _
    · have h := ih (offset + byteLength l.text) t ht
      omega

/-- Faults lie after the offset that the first piece starts at, and none is empty. -/
theorem liesAfter_place (h : ∀ l ∈ ls, l.Placed) (offset : Nat) :
    ∀ d ∈ (Lexed.place offset ls).diagnostics,
      offset ≤ d.span.start ∧ d.span.start < d.span.stop := by
  induction ls generalizing offset with
  | nil => simp [Lexed.place]
  | cons l ls ih =>
    rw [List.forall_mem_cons] at h
    intro d hd
    rw [Lexed.place, List.mem_append, List.mem_map] at hd
    rcases hd with ⟨f, hf, rfl⟩ | hd
    · have hshift := (h.1.inside f hf).shift offset
      exact ⟨hshift.le_start, hshift.nonempty⟩
    · have hrest := ih h.2 (offset + byteLength l.text) d hd
      omega

theorem not_contains_of_stop_le {s t : Span} (h : s.stop ≤ t.start) (ht : t.start < t.stop) :
    s.contains t = false := by
  simp only [Span.contains, Bool.and_eq_false_iff, decide_eq_false_iff_not]
  omega

theorem not_contains_of_lt_start {s t : Span} (h : t.start < s.start) : s.contains t = false := by
  simp only [Span.contains, Bool.and_eq_false_iff, decide_eq_false_iff_not]
  omega

theorem onlyErrorCovers_place (h : ∀ l ∈ ls, l.Placed) (offset : Nat) :
    ∀ d ∈ (Lexed.place offset ls).diagnostics,
      OnlyErrorCovers (Lexed.place offset ls).tokens d.span := by
  induction ls generalizing offset with
  | nil => simp [Lexed.place]
  | cons l ls ih =>
    rw [List.forall_mem_cons] at h
    obtain ⟨hl, hls⟩ := h
    intro d hd
    rw [Lexed.place, List.mem_append, List.mem_map] at hd
    rw [Lexed.place]
    rcases hd with ⟨f, hf, rfl⟩ | hd
    · -- The piece itself is the error token; all later tokens start after it.
      have hkind := hl.error_iff.2 (List.ne_nil_of_mem hf)
      have hshift := (hl.inside f hf).shift offset
      refine ⟨[], _, _, by rw [hkind]; rfl, rfl, ?_, fun u hu => ?_⟩
      · simpa [Span.contains] using ⟨hshift.le_start, hshift.stop_le⟩
      · have hstart := le_start_place _ ls u hu
        have hlt := hshift.nonempty
        have hle := hshift.stop_le
        exact not_contains_of_lt_start (by omega)
    · obtain ⟨before, t, after, htokens, hkind, hcovers, hothers⟩ :=
        ih hls (offset + byteLength l.text) d hd
      obtain ⟨hstart, hlt⟩ := liesAfter_place hls (offset + byteLength l.text) d hd
      refine ⟨(l.kind.map fun k => ⟨k, ⟨offset, offset + byteLength l.text⟩⟩).toList ++ before, t,
        after, by rw [htokens, List.append_assoc], hkind, hcovers, fun u hu => ?_⟩
      rw [List.append_assoc, List.mem_append, Option.mem_toList] at hu
      rcases hu with hu | hu
      · obtain ⟨k, -, rfl⟩ := Option.map_eq_some_iff.1 hu
        exact not_contains_of_stop_le hstart hlt
      · exact hothers u hu

theorem exists_fault_place (h : ∀ l ∈ ls, l.Placed) (offset : Nat) :
    ∀ t ∈ (Lexed.place offset ls).tokens, t.kind = .error →
      ∃ d ∈ (Lexed.place offset ls).diagnostics, t.span.contains d.span = true := by
  induction ls generalizing offset with
  | nil => simp [Lexed.place]
  | cons l ls ih =>
    rw [List.forall_mem_cons] at h
    obtain ⟨hl, hls⟩ := h
    intro t ht hkind
    rw [Lexed.place, List.mem_append, Option.mem_toList] at ht
    rw [Lexed.place]
    rcases ht with ht | ht
    · obtain ⟨k, hk, rfl⟩ := Option.map_eq_some_iff.1 ht
      obtain rfl : k = .error := hkind
      obtain ⟨f, hf⟩ := List.exists_mem_of_ne_nil _ (hl.error_iff.1 hk)
      have hshift := (hl.inside f hf).shift offset
      refine ⟨f.shift offset, List.mem_append_left _ (List.mem_map_of_mem hf), ?_⟩
      simpa [Span.contains] using ⟨hshift.le_start, hshift.stop_le⟩
    · obtain ⟨d, hd, hcovers⟩ := ih hls _ t ht hkind
      exact ⟨d, List.mem_append_right _ hd, hcovers⟩

end Places

/-- **Error tokens and lexical diagnostics correspond.** Each diagnostic lies in the span of exactly
one token, and that is an error token. In the span of each error token there is a diagnostic. So a
text has no error token if and only if it has no diagnostic. -/
theorem tokenize_errors (source : String) :
    (∀ d ∈ (tokenize source).diagnostics, OnlyErrorCovers (tokenize source).tokens d.span) ∧
    (∀ t ∈ (tokenize source).tokens, t.kind = .error →
      ∃ d ∈ (tokenize source).diagnostics, t.span.contains d.span = true) ∧
    ((∀ t ∈ (tokenize source).tokens, t.kind ≠ .error) ↔ (tokenize source).diagnostics = []) := by
  have hplaced := placed_of_mem_lexemes source.toList
  have hcovers : ∀ d ∈ (tokenize source).diagnostics,
      OnlyErrorCovers (tokenize source).tokens d.span := onlyErrorCovers_place hplaced 0
  have hfault : ∀ t ∈ (tokenize source).tokens, t.kind = .error →
      ∃ d ∈ (tokenize source).diagnostics, t.span.contains d.span = true :=
    exists_fault_place hplaced 0
  refine ⟨hcovers, hfault, fun hnone => ?_, fun hnone t ht hkind => ?_⟩
  · refine List.eq_nil_iff_forall_not_mem.2 fun d hd => ?_
    obtain ⟨before, t, after, htokens, hkind, -⟩ := hcovers d hd
    exact hnone t (htokens ▸ List.mem_append_right _ List.mem_cons_self) hkind
  · obtain ⟨d, hd, -⟩ := hfault t ht hkind
    rw [hnone] at hd
    cases hd

/-- A string with two bad escapes that is not closed either is one error with three diagnostics. -/
theorem tokenize_errors_string :
    (tokenize "a '\\x4 \\u\x7b\x7d\nb").diagnostics.length = 3 ∧
      ∀ d ∈ (tokenize "a '\\x4 \\u\x7b\x7d\nb").diagnostics,
        OnlyErrorCovers (tokenize "a '\\x4 \\u\x7b\x7d\nb").tokens d.span :=
  ⟨by decide +kernel, (tokenize_errors _).1⟩

end ScriptFold
