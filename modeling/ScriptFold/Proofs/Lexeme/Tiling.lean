import ScriptFold.Lexeme

/-!
How tokens and trivia tile a text.

Trivia are blanks and complete comments. A text is a row of tokens with trivia before, between and
after them. Every token takes at least one character, and the trivia before it are all there are:
what a token starts with could not be skipped. Whatever is wrong with a text, its tokens tile it.
-/

namespace ScriptFold

/-! ## Trivia -/

/-- `Trivia after cs`: the text `cs`, which `after` follows, consists of blanks and complete
comments. A line comment goes on to a line feed or to the end; a block comment ends with the first
closing mark in it. -/
inductive Trivia (after : List Char) : List Char → Prop
  | nil : Trivia after []
  | blank {c : Char} {cs : List Char} (hc : Text.isBlank c) (h : Trivia after cs) :
    Trivia after (c :: cs)
  | line {body cs : List Char} (hbody : '\n' ∉ body) (hend : ∀ c ∈ (cs ++ after).head?, c = '\n')
    (h : Trivia after cs) : Trivia after ('/' :: '/' :: (body ++ cs))
  | block {body cs : List Char} (hbody : ¬['*', '/'] <:+: body) (h : Trivia after cs) :
    Trivia after ('/' :: '*' :: (body ++ '*' :: '/' :: cs))

/-- The text starts with something that can be skipped. -/
def StartsWithTrivia (text : List Char) : Prop :=
  ∃ gap after, gap ≠ [] ∧ text = gap ++ after ∧ Trivia after gap

/-- The text `piece` can be skipped in front of `rest`, and trivia of `rest` after it. -/
def Skips (piece rest : List Char) : Prop :=
  ∀ gap after, rest = gap ++ after → Trivia after gap → Trivia after (piece ++ gap)

theorem skips_blanks {cs rest : List Char} (h : ∀ c ∈ cs, Text.isBlank c) : Skips cs rest := by
  intro gap after _ hgap
  induction cs with
  | nil => exact hgap
  | cons c cs ih =>
    have hcs : ∀ d ∈ cs, Text.isBlank d := fun d hd => h d (List.mem_cons_of_mem c hd)
    exact .blank (h c List.mem_cons_self) (ih hcs)

theorem skips_line {body rest : List Char} (hbody : '\n' ∉ body)
    (hend : ∀ c ∈ rest.head?, c = '\n') : Skips ('/' :: '/' :: body) rest := by
  rintro gap after rfl hgap
  exact .line hbody hend hgap

theorem skips_block {body rest : List Char} (hbody : ¬['*', '/'] <:+: body) :
    Skips ('/' :: '*' :: (body ++ ['*', '/'])) rest := by
  intro gap after _ hgap
  have h := Trivia.block hbody hgap
  simpa using h

/-! ### Comments of the scanner -/

/-- The end of a block comment is the first closing mark. -/
theorem split_of_blockCommentRun {cs : List Char} {n : Nat} (h : blockCommentRun cs = some n) :
    ∃ body rest, cs = body ++ '*' :: '/' :: rest ∧ n = body.length + 2 ∧
      ¬['*', '/'] <:+: body := by
  fun_induction blockCommentRun cs generalizing n with
  | case1 => cases h
  | case2 rest =>
    cases h
    exact ⟨[], rest, rfl, rfl, by simp⟩
  | case3 c rest hopen ih =>
    obtain ⟨m, hm, rfl⟩ := Option.map_eq_some_iff.1 h
    obtain ⟨body, tail, rfl, rfl, hbody⟩ := ih hm
    refine ⟨c :: body, tail, rfl, rfl, ?_⟩
    rw [List.infix_cons_iff]
    rintro (hfront | hinside)
    · -- the closing mark would stand at the front of the text
      obtain ⟨u, hu⟩ := hfront
      obtain ⟨rfl, rfl⟩ := List.cons.inj hu
      exact hopen (u ++ '*' :: '/' :: tail) rfl rfl
    · exact hbody hinside

theorem isSome_blockCommentRun (body rest : List Char) :
    (blockCommentRun (body ++ '*' :: '/' :: rest)).isSome := by
  induction body with
  | nil => rfl
  | cons c body ih =>
    rw [List.cons_append, blockCommentRun.eq_def]
    split
    · rename_i heq
      cases heq
    · rfl
    · rename_i heq
      obtain ⟨rfl, rfl⟩ := List.cons.inj heq
      rw [Option.isSome_map]
      exact ih

/-! ## Pieces -/

/-- What a piece of a text is: it is skipped, or it is a token, but not the end, and starts with
nothing that could be skipped. -/
inductive Piece (c : Char) (cs : List Char) (s : Scan) : Prop
  | skipped (hkind : s.kind = none) (h : Skips (c :: cs.take s.more) (cs.drop s.more))
  | token {k : TokenKind} (hkind : s.kind = some k) (hk : k ≠ .eof)
    (h : ¬StartsWithTrivia (c :: cs))

/-- The scan gives a token that is not the end. -/
def Scan.IsToken (s : Scan) : Prop := ∃ k, s.kind = some k ∧ k ≠ .eof

theorem isToken_fault (text : List Char) (more : Nat) (f : LexicalFault) :
    (Scan.fault text more f).IsToken := ⟨.error, rfl, by simp⟩

theorem isToken_finishNumber (text : List Char) (more : Nat) (value : Float) (f : LexicalFault)
    (faulty : Bool) : (finishNumber text more value f faulty).IsToken := by
  cases faulty with
  | true => exact isToken_fault _ _ _
  | false => exact ⟨.number value, rfl, by simp⟩

theorem isToken_scanNumber (c : Char) (cs : List Char) : (scanNumber c cs).IsToken := by
  unfold scanNumber
  split
  · split
    · exact isToken_finishNumber _ _ _ _ _
    · exact isToken_finishNumber _ _ _ _ _
  · exact isToken_finishNumber _ _ _ _ _

theorem isToken_scanString (quote : Char) (cs : List Char) : (scanString quote cs).IsToken := by
  unfold scanString
  generalize bodyRun quote cs = body
  obtain ⟨n, stop⟩ := body
  cases stop with
  | quote =>
    refine ⟨_, rfl, ?_⟩
    split <;> exact TokenKind.noConfusion
  | newline | eof => exact ⟨.error, rfl, TokenKind.noConfusion⟩

theorem not_startsWithTrivia {c : Char} {cs : List Char} (hblank : ¬Text.isBlank c)
    (hline : ¬(c = '/' ∧ cs.head? = some '/'))
    (hblock : c = '/' → cs.head? = some '*' → blockCommentRun (cs.drop 1) = none) :
    ¬StartsWithTrivia (c :: cs) := by
  rintro ⟨gap, after, hgap, htext, htrivia⟩
  cases htrivia with
  | nil => exact hgap rfl
  | blank hc _ =>
    obtain ⟨rfl, -⟩ := List.cons.inj htext
    exact hblank hc
  | line _ _ _ =>
    obtain ⟨rfl, rfl⟩ := List.cons.inj htext
    exact hline ⟨rfl, rfl⟩
  | @block body tail _ _ =>
    simp only [List.cons_append, List.append_assoc] at htext
    obtain ⟨rfl, rfl⟩ := List.cons.inj htext
    have hsome := isSome_blockCommentRun body (tail ++ after)
    have hnone : blockCommentRun (body ++ '*' :: '/' :: (tail ++ after)) = none := hblock rfl rfl
    rw [hnone] at hsome
    cases hsome

/-- A run of characters of a class, and where it stops. -/
theorem split_takeWhile (p : Char → Bool) (cs : List Char) :
    ∃ run rest, cs = run ++ rest ∧ (cs.takeWhile p).length = run.length ∧
      (∀ c ∈ run, p c) ∧ ∀ c ∈ rest.head?, ¬p c := by
  refine ⟨cs.takeWhile p, cs.dropWhile p, List.takeWhile_append_dropWhile.symm, rfl, ?_, ?_⟩
  · exact List.all_eq_true.1 (List.all_takeWhile (p := p) (l := cs))
  · intro c hc
    have h := List.head?_dropWhile_not p cs
    rw [Option.mem_def.1 hc] at h
    simpa using h

/-- **What stands at the front of a text.** -/
theorem piece_scan (c : Char) (cs : List Char) : Piece c cs (scan c cs) := by
  unfold scan
  split
  · rename_i hblank
    obtain ⟨run, rest, rfl, hlength, hrun, -⟩ := split_takeWhile Text.isBlank cs
    refine .skipped rfl ?_
    rw [hlength, List.take_left, List.drop_left]
    exact skips_blanks (List.forall_mem_cons.2 ⟨hblank, hrun⟩)
  rename_i hblank
  split
  · rename_i hline
    obtain ⟨rfl, hslash⟩ := hline
    obtain ⟨cs, rfl⟩ := List.head?_eq_some_iff.1 hslash
    obtain ⟨run, rest, rfl, hlength, hrun, hrest⟩ := split_takeWhile (· ≠ '\n') cs
    have hmore : (('/' :: (run ++ rest)).takeWhile (· ≠ '\n')).length = run.length + 1 := by
      rw [List.takeWhile_cons_of_pos (by decide), List.length_cons, hlength]
    refine .skipped rfl ?_
    dsimp only
    rw [hmore, List.take_succ_cons, List.drop_succ_cons, List.take_left, List.drop_left]
    refine skips_line ?_ fun c hc => ?_
    · intro hmem
      simpa using hrun _ hmem
    · simpa using hrest c hc
  rename_i hline
  split
  · rename_i hblock
    obtain ⟨rfl, hstar⟩ := hblock
    obtain ⟨cs, rfl⟩ := List.head?_eq_some_iff.1 hstar
    split
    · rename_i n hrun
      obtain ⟨body, rest, hcs, rfl, hbody⟩ := split_of_blockCommentRun hrun
      have hsplit : '*' :: cs = ('*' :: (body ++ ['*', '/'])) ++ rest := by
        simpa using hcs
      have hlength : body.length + 2 + 1 = ('*' :: (body ++ ['*', '/'])).length := by simp
      refine .skipped rfl ?_
      dsimp only
      rw [hsplit, hlength, List.take_left, List.drop_left]
      exact skips_block hbody
    · rename_i hopen
      exact .token rfl TokenKind.noConfusion
        (not_startsWithTrivia hblank hline fun _ _ => hopen)
  rename_i hblock
  have hstart : ¬StartsWithTrivia (c :: cs) :=
    not_startsWithTrivia hblank hline fun hc hstar => absurd ⟨hc, hstar⟩ hblock
  have htoken {s : Scan} (h : s.IsToken) : Piece c cs s := by
    obtain ⟨k, hkind, hk⟩ := h
    exact .token hkind hk hstart
  split
  · exact htoken (isToken_scanString c cs)
  split
  · exact htoken (isToken_scanNumber c cs)
  split
  · exact .token rfl (TokenKind.ofWord_ne_eof _) hstart
  split
  · exact .token rfl TokenKind.noConfusion hstart
  · exact htoken (isToken_fault _ _ _)

/-! ## Tilings -/

/-- `Tiles offset text tokens`: the text, which starts at an offset, is a row of these tokens with
trivia before, between and after them. Each token stands where its text does; the last one is the
end, without a text. -/
inductive Tiles : Nat → List Char → List Token → Prop
  | finish {offset : Nat} {gap : List Char} (hgap : Trivia [] gap) :
    Tiles offset gap [⟨.eof, ⟨offset + byteLength gap, offset + byteLength gap⟩⟩]
  | token {offset : Nat} {gap word rest : List Char} {kind : TokenKind} {tokens : List Token}
    (hgap : Trivia (word ++ rest) gap) (hword : word ≠ [])
    (hstart : ¬StartsWithTrivia (word ++ rest)) (hkind : kind ≠ .eof)
    (hrest : Tiles (offset + byteLength (gap ++ word)) rest tokens) :
    Tiles offset (gap ++ (word ++ rest))
      (⟨kind, ⟨offset + byteLength gap, offset + byteLength (gap ++ word)⟩⟩ :: tokens)

namespace Tiles

variable {offset : Nat} {text : List Char} {tokens : List Token}

theorem skip {piece : List Char} (hpiece : Skips piece text)
    (h : Tiles (offset + byteLength piece) text tokens) : Tiles offset (piece ++ text) tokens := by
  cases h with
  | finish hgap =>
    have htrivia := hpiece text [] (List.append_nil text).symm hgap
    rw [Nat.add_assoc, ← byteLength_append]
    exact .finish htrivia
  | @token _ gap word rest kind tokens hgap hword hstart hkind hrest =>
    have htrivia := hpiece gap (word ++ rest) rfl hgap
    have hplace : offset + byteLength piece + byteLength (gap ++ word) =
        offset + byteLength (piece ++ gap ++ word) := by
      simp only [byteLength_append]
      omega
    rw [hplace] at hrest
    have h := Tiles.token htrivia hword hstart hkind hrest
    rw [← hplace, byteLength_append piece gap, ← Nat.add_assoc, List.append_assoc] at h
    exact h

end Tiles

/-- The pieces of a text tile it. -/
theorem tiles_place (offset : Nat) (cs : List Char) :
    Tiles offset cs (Lexed.place offset (lexemes cs)).tokens := by
  fun_induction lexemes cs generalizing offset with
  | case1 => exact .finish .nil
  | case2 c cs s ih =>
    have hrest := ih (offset + byteLength (c :: cs.take s.more))
    have htext : c :: cs = (c :: cs.take s.more) ++ cs.drop s.more := by
      rw [List.cons_append, List.take_append_drop]
    have hpiece : Piece c cs s := piece_scan c cs
    generalize s = t at *
    rw [htext]
    cases hpiece with
    | skipped hkind h =>
      have hplace : (Lexed.place offset (⟨c :: cs.take t.more, t.kind, t.faults⟩ ::
          lexemes (cs.drop t.more))).tokens = (Lexed.place
            (offset + byteLength (c :: cs.take t.more)) (lexemes (cs.drop t.more))).tokens := by
        rw [Lexed.place, hkind]
        rfl
      rw [hplace]
      exact hrest.skip h
    | @token k hkind hk h =>
      have hplace : (Lexed.place offset (⟨c :: cs.take t.more, t.kind, t.faults⟩ ::
          lexemes (cs.drop t.more))).tokens =
            ⟨k, ⟨offset, offset + byteLength (c :: cs.take t.more)⟩⟩ :: (Lexed.place
              (offset + byteLength (c :: cs.take t.more)) (lexemes (cs.drop t.more))).tokens := by
        rw [Lexed.place, hkind]
        rfl
      rw [htext] at h
      rw [hplace]
      exact Tiles.token .nil (List.cons_ne_nil _ _) h hk hrest

/-! ## What a tiling says -/

/-- The span cuts out some characters of a text that starts at an offset. -/
def Span.CutsOut (s : Span) (offset : Nat) (text : List Char) : Prop :=
  ∃ before word after, text = before ++ (word ++ after) ∧ word ≠ [] ∧
    s.start = offset + byteLength before ∧ s.stop = offset + byteLength (before ++ word)

theorem Span.CutsOut.prepend {s : Span} {offset : Nat} {front text : List Char}
    (h : s.CutsOut (offset + byteLength front) text) : s.CutsOut offset (front ++ text) := by
  obtain ⟨before, word, after, rfl, hword, hstart, hstop⟩ := h
  refine ⟨front ++ before, word, after, (List.append_assoc _ _ _).symm, hword, ?_, ?_⟩
  · rw [hstart, byteLength_append, Nat.add_assoc]
  · rw [hstop, List.append_assoc, byteLength_append front, Nat.add_assoc]

theorem byteLength_pos {cs : List Char} (h : cs ≠ []) : 0 < byteLength cs := by
  obtain ⟨c, cs, rfl⟩ := List.exists_cons_of_ne_nil h
  have hc := c.utf8Size_pos
  rw [byteLength_cons]
  omega

theorem Span.CutsOut.start_lt_stop {s : Span} {offset : Nat} {text : List Char}
    (h : s.CutsOut offset text) : s.start < s.stop := by
  obtain ⟨before, word, after, -, hword, hstart, hstop⟩ := h
  have hpos := byteLength_pos hword
  rw [byteLength_append] at hstop
  omega

/-- The tokens of a tiling: the end stands at the end of the text, and the others cut out parts of
the text, one after another. -/
theorem Tiles.tokens_eq {offset : Nat} {text : List Char} {tokens : List Token}
    (h : Tiles offset text tokens) :
    ∃ words : List Token,
      tokens = words ++ [⟨.eof, ⟨offset + byteLength text, offset + byteLength text⟩⟩] ∧
      (∀ t ∈ words, t.kind ≠ .eof ∧ t.span.CutsOut offset text) ∧
      words.Pairwise fun t u => t.span.stop ≤ u.span.start := by
  induction h with
  | finish hgap => exact ⟨[], rfl, by simp, .nil⟩
  | @token offset gap word rest kind tokens hgap hword hstart hkind hrest ih =>
    obtain ⟨words, rfl, hwords, hordered⟩ := ih
    have htext : gap ++ (word ++ rest) = gap ++ word ++ rest := (List.append_assoc _ _ _).symm
    refine ⟨⟨kind, ⟨offset + byteLength gap, offset + byteLength (gap ++ word)⟩⟩ :: words, ?_, ?_,
      .cons ?_ hordered⟩
    · simp only [List.cons_append, byteLength_append, Nat.add_assoc]
    · intro t ht
      rcases List.mem_cons.1 ht with rfl | ht
      · exact ⟨hkind, gap, word, rest, rfl, hword, rfl, rfl⟩
      · rw [htext]
        exact ⟨(hwords t ht).1, (hwords t ht).2.prepend⟩
    · intro t ht
      obtain ⟨before, inner, after, -, -, hfrom, -⟩ := (hwords t ht).2
      dsimp only
      omega

/-- **The tokens of a text partition it.** Exactly the last token is the end, and its span is
empty and stands at the end of the text. Every other token cuts out at least one character of the
text; the tokens come in the order of the text and do not overlap; and between them there are only
blanks and complete comments, as many as can be skipped. -/
theorem tokenize_tiles (source : String) :
    Tiles 0 source.toList (tokenize source).tokens ∧
    ∃ words : List Token,
      (tokenize source).tokens =
        words ++ [⟨.eof, ⟨byteLength source.toList, byteLength source.toList⟩⟩] ∧
      (∀ t ∈ words, t.kind ≠ .eof ∧ t.span.start < t.span.stop ∧
        t.span.CutsOut 0 source.toList) ∧
      words.Pairwise fun t u => t.span.stop ≤ u.span.start := by
  have htiles : Tiles 0 source.toList (tokenize source).tokens := tiles_place 0 source.toList
  obtain ⟨words, heq, hwords, hordered⟩ := htiles.tokens_eq
  rw [Nat.zero_add] at heq
  refine ⟨htiles, words, heq, fun t ht => ?_, hordered⟩
  obtain ⟨hkind, hcuts⟩ := hwords t ht
  exact ⟨hkind, hcuts.start_lt_stop, hcuts⟩

end ScriptFold
