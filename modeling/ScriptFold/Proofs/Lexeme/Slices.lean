import ScriptFold.Proofs.Lexeme.StandsAlone

/-!
The slices of a text that its tokens cover.

Each token has a text, the slice of its span. As tokens stand alone, the slices of a text without
faults have the same tokens again when they are joined by spaces, and each slice has its token by
itself: what is between tokens, and where they stand, makes no difference.
-/

namespace ScriptFold

variable {c : Char} {cs rest : List Char}

/-! ## Slices -/

theorem byteLength_cons_eq_succ (c : Char) (cs : List Char) : ∃ n,
    byteLength (c :: cs) = n + 1 ∧ c.utf8Size ≤ n + 1 ∧ n + 1 - c.utf8Size = byteLength cs := by
  have hc := c.utf8Size_pos
  exact ⟨c.utf8Size - 1 + byteLength cs, by rw [byteLength_cons]; omega, by omega, by omega⟩

theorem dropBytes?_append (before cs : List Char) :
    dropBytes? (byteLength before) (before ++ cs) = some cs := by
  induction before with
  | nil => cases cs <;> rfl
  | cons c before ih =>
    obtain ⟨n, hn, hle, hrest⟩ := byteLength_cons_eq_succ c before
    rw [hn, List.cons_append, dropBytes?, if_pos hle, hrest, ih]

theorem takeBytes?_append (word cs : List Char) :
    takeBytes? (byteLength word) (word ++ cs) = some word := by
  induction word with
  | nil => cases cs <;> rfl
  | cons c word ih =>
    obtain ⟨n, hn, hle, hrest⟩ := byteLength_cons_eq_succ c word
    rw [hn, List.cons_append, takeBytes?, if_pos hle, hrest, ih]
    rfl

/-- The slice of a span that cuts out a word is the word. -/
theorem slice_eq {source : String} {before word after : List Char}
    (h : source.toList = before ++ (word ++ after)) :
    Span.slice ⟨byteLength before, byteLength before + byteLength word⟩ source =
      String.ofList word := by
  rw [Span.slice, if_pos (Nat.le_add_right _ _), h, dropBytes?_append, Option.bind_some,
    Nat.add_sub_cancel_left, takeBytes?_append, Option.getD_some]

/-- The tokens among some pieces, each with its text; blanks and comments are left out. -/
def tokenTexts (ls : List Lexeme) : List (TokenKind × List Char) :=
  ls.filterMap fun l => l.kind.map fun k => (k, l.text)

theorem tokenTexts_cons_of_none {l : Lexeme} (h : l.kind = none) (ls : List Lexeme) :
    tokenTexts (l :: ls) = tokenTexts ls := by
  simp [tokenTexts, h]

theorem tokenTexts_cons_of_some {l : Lexeme} {k : TokenKind} (h : l.kind = some k)
    (ls : List Lexeme) : tokenTexts (l :: ls) = (k, l.text) :: tokenTexts ls := by
  simp [tokenTexts, h]

theorem map_kind_place (offset : Nat) (ls : List Lexeme) :
    (Lexed.place offset ls).tokens.map Token.kind = (tokenTexts ls).map Prod.fst ++ [.eof] := by
  induction ls generalizing offset with
  | nil => rfl
  | cons l ls ih =>
    rw [Lexed.place, List.map_append, ih]
    cases hkind : l.kind with
    | none => rw [tokenTexts_cons_of_none hkind]; rfl
    | some k => rw [tokenTexts_cons_of_some hkind]; rfl

/-- Tokens with their slices are tokens with their texts, and the end. -/
theorem map_tokens_place {source : String} (before : List Char) (ls : List Lexeme)
    (h : source.toList = before ++ ls.flatMap Lexeme.text) :
    (Lexed.place (byteLength before) ls).tokens.map (fun t => (t.kind, t.span.slice source)) =
      (tokenTexts ls).map (fun w => (w.1, String.ofList w.2)) ++ [(.eof, "")] := by
  induction ls generalizing before with
  | nil =>
    have hend : source.toList = before ++ ([] ++ []) := h
    exact congrArg (fun s => [(TokenKind.eof, s)]) (slice_eq hend)
  | cons l ls ih =>
    rw [List.flatMap_cons] at h
    have hrest := ih (before ++ l.text) (by rw [h, List.append_assoc])
    have hslice := slice_eq h
    rw [byteLength_append] at hrest
    rw [Lexed.place]
    cases hkind : l.kind with
    | none => simpa [tokenTexts_cons_of_none hkind] using hrest
    | some k => simp [tokenTexts_cons_of_some hkind, hrest, hslice]

/-! ## Texts of tokens -/

theorem faults_eq_nil_of_diagnostics {offset : Nat} {ls : List Lexeme}
    (h : (Lexed.place offset ls).diagnostics = []) : ∀ l ∈ ls, l.faults = [] := by
  induction ls generalizing offset with
  | nil => exact List.forall_mem_nil _
  | cons l ls ih =>
    rw [Lexed.place, List.append_eq_nil_iff, List.map_eq_nil_iff] at h
    exact List.forall_mem_cons.2 ⟨h.1, ih h.2⟩

/-- The text is a token of a kind wherever something stands apart after it. -/
structure IsTokenText (w : TokenKind × List Char) : Prop where
  visible : ∃ c cs, w.2 = c :: cs ∧ Text.isBlank c = false
  lexes : ∀ rest, Apart rest → Lexes w.2 [w.1] rest

theorem isTokenText_of_mem_tokenTexts (h : ∀ l ∈ lexemes cs, l.faults = []) :
    ∀ w ∈ tokenTexts (lexemes cs), IsTokenText w := by
  fun_induction lexemes cs with
  | case1 => exact List.forall_mem_nil _
  | case2 c cs s ih =>
    rw [List.forall_mem_cons] at h
    have hrest := ih h.2
    cases hkind : s.kind with
    | none => rwa [tokenTexts_cons_of_none rfl]
    | some k =>
      have hscan : scan c cs = ⟨some k, s.more, []⟩ := by
        rw [← hkind, ← h.1]
      obtain ⟨more, after, hcs, hmore, hstands⟩ := standsAlone_scan c hscan
      have htake : cs.take s.more = more := by rw [hcs, hmore, List.take_left]
      rw [tokenTexts_cons_of_some rfl, List.forall_mem_cons, htake]
      exact ⟨⟨⟨c, more, rfl, (Visible.of_scan hscan).blank⟩, fun rest hrest =>
        lexes_token c more (hstands rest hrest)⟩, hrest⟩

theorem lexes_space (h : ∀ c ∈ cs.head?, Text.isBlank c = false) : Lexes [' '] [] cs := by
  have hscan : scan ' ' cs = ⟨none, 0, []⟩ := by
    have hrun : (cs.takeWhile Text.isBlank).length = 0 := by
      cases cs with
      | nil => rfl
      | cons c cs => rw [List.takeWhile_cons_of_neg (by simp [h c rfl])]; rfl
    rw [scan, if_pos (by decide), hrun]
  refine ⟨[⟨[' '], none, []⟩], ?_, rfl, by simp⟩
  rw [List.singleton_append, lexemes, hscan]
  rfl

/-- The texts of tokens with spaces between them have these tokens. -/
theorem lexes_intercalate {ws : List (TokenKind × List Char)} (h : ∀ w ∈ ws, IsTokenText w)
    (hrest : Apart rest) : Lexes ([' '].intercalate (ws.map Prod.snd)) (ws.map Prod.fst) rest := by
  induction ws with
  | nil => exact Lexes.nil rest
  | cons w ws ih =>
    rw [List.forall_mem_cons] at h
    cases ws with
    | nil => simpa using h.1.lexes rest hrest
    | cons w' ws =>
      have hnext := ih h.2
      obtain ⟨c, cs, hw', hblank⟩ := (h.2 w' List.mem_cons_self).visible
      rw [List.map_cons, List.map_cons, hw', List.intercalate_cons_cons_left] at hnext
      rw [List.map_cons, List.map_cons, List.map_cons, List.map_cons, List.intercalate_cons_cons,
        hw', List.intercalate_cons_cons_left, List.append_assoc]
      have hspace : Lexes [' '] [] (c :: [' '].intercalate (cs :: ws.map Prod.snd) ++ rest) := by
        refine lexes_space ?_
        rintro _ ⟨⟩
        exact hblank
      exact (h.1.lexes _ (apart_space _)).append (hspace.append hnext)

/-! ## Texts -/

def slices (source : String) : List String :=
  (tokenize source).tokens.map fun t => t.span.slice source

theorem map_tokens (source : String) :
    (tokenize source).tokens.map (fun t => (t.kind, t.span.slice source)) =
      (tokenTexts (lexemes source.toList)).map (fun w => (w.1, String.ofList w.2)) ++
        [(.eof, "")] :=
  map_tokens_place [] _ (flatMap_text_lexemes _).symm

theorem slices_eq (source : String) : slices source =
    (tokenTexts (lexemes source.toList)).map (fun w => String.ofList w.2) ++ [""] := by
  have h := congrArg (List.map Prod.snd) (map_tokens source)
  simpa [slices, Function.comp_def] using h

theorem map_kind_tokens (source : String) : (tokenize source).tokens.map Token.kind =
    (tokenTexts (lexemes source.toList)).map Prod.fst ++ [.eof] := map_kind_place 0 _

theorem hasKinds_intercalate {ws : List (TokenKind × List Char)} (h : ∀ w ∈ ws, IsTokenText w) :
    HasKinds (" ".intercalate (ws.map fun w => String.ofList w.2)) (ws.map Prod.fst) ∧
      HasKinds (" ".intercalate (ws.map (fun w => String.ofList w.2) ++ [""]))
        (ws.map Prod.fst) := by
  have htext : (" ".intercalate (ws.map fun w => String.ofList w.2)).toList =
      [' '].intercalate (ws.map Prod.snd) := by
    simp [Function.comp_def]
  refine ⟨hasKinds_of_lexes ?_, ?_⟩
  · rw [htext]
    exact lexes_intercalate h apart_nil
  · by_cases hws : ws = []
    · subst hws
      exact hasKinds_of_lexes (Lexes.nil [])
    · -- Before the end there is one more space.
      have hspace : Lexes [' '] [] [] := lexes_space (by rintro _ ⟨⟩)
      have hall := (lexes_intercalate h (apart_space [])).append hspace
      rw [List.append_nil] at hall
      refine hasKinds_of_lexes ?_
      rw [String.intercalate_append_of_ne_nil (by simpa using hws) (by simp),
        String.intercalate_singleton, String.append_empty, String.toList_append, htext]
      exact hall

theorem isTokenText_of_diagnostics {source : String} (h : (tokenize source).diagnostics = []) :
    ∀ w ∈ tokenTexts (lexemes source.toList), IsTokenText w :=
  isTokenText_of_mem_tokenTexts (faults_eq_nil_of_diagnostics h)

/-- **Tokens do not depend on what is between them.** Let a text be without faults. Its slices that
tokens cover, joined by spaces, with the empty slice of the end or without it, are without faults
and have the same tokens with the same values. Each slice by itself has exactly its own token. So
texts without faults that agree on their slices agree on their tokens. -/
theorem tokenize_slices {source : String} (h : (tokenize source).diagnostics = []) :
    (∀ joined ∈ [" ".intercalate (slices source), " ".intercalate (slices source).dropLast],
      (tokenize joined).diagnostics = [] ∧
      (tokenize joined).tokens.map Token.kind = (tokenize source).tokens.map Token.kind) ∧
    (∀ t ∈ (tokenize source).tokens, t.kind ≠ .eof →
      (tokenize (t.span.slice source)).diagnostics = [] ∧
      (tokenize (t.span.slice source)).tokens.map Token.kind = [t.kind, .eof]) ∧
    ∀ other, (tokenize other).diagnostics = [] → slices other = slices source →
      (tokenize other).tokens.map Token.kind = (tokenize source).tokens.map Token.kind := by
  have hwords := isTokenText_of_diagnostics h
  obtain ⟨hwithout, hwith⟩ := hasKinds_intercalate hwords
  rw [← slices_eq] at hwith
  refine ⟨?_, fun t ht hkind => ?_, fun other hother hslices => ?_⟩
  · rw [map_kind_tokens source, slices_eq source, List.dropLast_concat, ← slices_eq]
    simpa using ⟨hwith, hwithout⟩
  · have hmem := List.mem_map_of_mem (f := fun t => (t.kind, t.span.slice source)) ht
    rw [map_tokens, List.mem_append] at hmem
    rcases hmem with hmem | hend
    · obtain ⟨w, hw, heq⟩ := List.mem_map.1 hmem
      obtain ⟨hk, hslice⟩ := Prod.mk.inj heq
      have hkinds : HasKinds (String.ofList w.2) [w.1] := by
        refine hasKinds_of_lexes ?_
        rw [String.toList_ofList]
        exact (hwords w hw).lexes [] apart_nil
      rw [← hk, ← hslice]
      exact hkinds
    · obtain ⟨hk, -⟩ := Prod.mk.inj (List.mem_singleton.1 hend)
      exact absurd hk hkind
  · -- Both texts have the tokens of their joined slices.
    obtain ⟨-, hwith'⟩ := hasKinds_intercalate (isTokenText_of_diagnostics hother)
    rw [← slices_eq, hslices] at hwith'
    rw [map_kind_tokens other, map_kind_tokens source, ← hwith'.2, hwith.2]

/-- A question mark before a fraction is a token by itself, whether a comment stands before it, a
space or nothing. -/
theorem tokenize_slices_question :
    (tokenize "a/**/?.5:b").diagnostics = [] ∧
    (tokenize "a ? .5 : b").tokens.map Token.kind =
      (tokenize "a/**/?.5:b").tokens.map Token.kind := by
  have hclean : (tokenize "a/**/?.5:b").diagnostics = [] := by decide +kernel
  have hjoined : " ".intercalate (slices "a/**/?.5:b").dropLast = "a ? .5 : b" := by
    decide +kernel
  obtain ⟨hsame, -⟩ := tokenize_slices hclean
  have hspaced := hsame _ (List.mem_cons_of_mem _ List.mem_cons_self)
  rw [hjoined] at hspaced
  exact ⟨hclean, hspaced.2⟩

end ScriptFold
