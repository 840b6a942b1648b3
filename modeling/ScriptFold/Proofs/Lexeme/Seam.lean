import ScriptFold.Proofs.Lexeme.Semicolons
import ScriptFold.Proofs.Lexeme.Slices

/-!
The tokens of a text and of another one on the lines after it.

If the first text is without faults and its last token is a semicolon, then no piece goes over the
seam but trivia: the pieces before the semicolon are the same in the longer text, and what follows
the semicolon is skipped up to the line feed.
-/

namespace ScriptFold

variable {c : Char} {cs gap after rest : List Char} {offset : Nat}

/-! ## Texts further on -/

theorem Span.shift_shift (m n : Nat) (s : Span) : (s.shift m).shift n = s.shift (n + m) := by
  simp only [shift, Nat.add_assoc]

theorem Diagnostic.shift_shift (m n : Nat) (d : Diagnostic) :
    (d.shift m).shift n = d.shift (n + m) := by
  simp [shift, Span.shift_shift, Function.comp_def]

namespace Lexed

/-- The tokens and faults of a text that stands `n` bytes further on. -/
def shift (n : Nat) (l : Lexed) : Lexed :=
  ⟨l.tokens.map (Token.shift n), l.diagnostics.map (·.shift n)⟩

theorem place_shift (n offset : Nat) (ls : List Lexeme) :
    place (n + offset) ls = (place offset ls).shift n := by
  induction ls generalizing offset with
  | nil => rfl
  | cons l ls ih =>
    rw [place, place, Nat.add_assoc, ih, shift, shift]
    simp only [List.map_append, List.map_map, Function.comp_def, Diagnostic.shift_shift]
    cases l.kind <;> rfl

theorem place_skipped (text : List Char) (ls : List Lexeme) :
    place offset (⟨text, none, []⟩ :: ls) = place (offset + byteLength text) ls := rfl

end Lexed

/-! ## Trivia -/

theorem lexemes_of_scan {more : List Char} {kind : Option TokenKind} {faults : List Diagnostic}
    (h : scan c (more ++ rest) = ⟨kind, more.length, faults⟩) :
    lexemes (c :: (more ++ rest)) = ⟨c :: more, kind, faults⟩ :: lexemes rest := by
  rw [lexemes, h]
  simp only [List.take_left, List.drop_left]

theorem lexemes_nil : lexemes [] = [] := by
  rw [lexemes]

theorem lexemes_semicolon (cs : List Char) :
    lexemes (';' :: cs) = ⟨[';'], some (.mark .semicolon), []⟩ :: lexemes cs := by
  rw [lexemes, scan_semicolon]
  rfl

/-- Blanks can be skipped one by one. -/
theorem place_blank (hc : Text.isBlank c) (cs : List Char) :
    Lexed.place offset (lexemes (c :: cs)) = Lexed.place (offset + c.utf8Size) (lexemes cs) := by
  have hscan (d : Char) (ds : List Char) (hd : Text.isBlank d) :
      scan d ds = ⟨none, (ds.takeWhile Text.isBlank).length, []⟩ := if_pos hd
  rw [lexemes, hscan c cs hc]
  cases cs with
  | nil => rfl
  | cons d ds =>
    by_cases hd : Text.isBlank d
    · rw [lexemes, hscan d ds hd, List.takeWhile_cons_of_pos hd]
      simp only [List.length_cons, List.take_succ_cons, List.drop_succ_cons, Lexed.place_skipped,
        byteLength_cons, Nat.add_assoc]
    · rw [List.takeWhile_cons_of_neg hd]
      rfl

theorem scan_line {body : List Char} (hbody : '\n' ∉ body) (hend : ∀ c ∈ rest.head?, c = '\n') :
    scan '/' ('/' :: (body ++ rest)) = ⟨none, ('/' :: body).length, []⟩ := by
  have hwhile : (body ++ rest).takeWhile (· ≠ '\n') = body := by
    refine takeWhile_append_of_head (fun d hd => ?_) ?_
    · simpa using fun h : d = '\n' => hbody (h ▸ hd)
    · cases rest with
      | nil => rfl
      | cons d rest => simpa using hend d rfl
  rw [scan, if_neg (by decide), if_pos ⟨rfl, rfl⟩, List.takeWhile_cons_of_pos (by decide), hwhile]

theorem scan_block {body : List Char} (hbody : ¬['*', '/'] <:+: body) (rest : List Char) :
    scan '/' ('*' :: (body ++ ['*', '/']) ++ rest) =
      ⟨none, ('*' :: (body ++ ['*', '/'])).length, []⟩ := by
  have htext : '*' :: (body ++ ['*', '/']) ++ rest = '*' :: (body ++ '*' :: '/' :: rest) := by simp
  rw [htext, scan, if_neg (by decide), if_neg (by simp), if_pos ⟨rfl, rfl⟩, List.drop_succ_cons,
    List.drop_zero, blockCommentRun_append hbody rest]
  simp

theorem place_trivia (h : Trivia after gap) : Lexed.place offset (lexemes (gap ++ after)) =
    Lexed.place (offset + byteLength gap) (lexemes after) := by
  induction h generalizing offset with
  | nil => rfl
  | @blank c cs hc _ ih =>
    rw [List.cons_append, place_blank hc, ih, byteLength_cons, Nat.add_assoc]
  | @line body cs hbody hend _ ih =>
    have htext : '/' :: '/' :: (body ++ cs) ++ after = '/' :: ('/' :: body ++ (cs ++ after)) := by
      simp
    have hlength : byteLength ('/' :: '/' :: (body ++ cs)) =
        byteLength ('/' :: '/' :: body) + byteLength cs := byteLength_append (_ :: _ :: _) cs
    rw [htext, lexemes_of_scan (scan_line hbody hend), Lexed.place_skipped, ih, hlength,
      Nat.add_assoc]
  | @block body cs hbody _ ih =>
    have htext : '/' :: '*' :: (body ++ '*' :: '/' :: cs) ++ after =
        '/' :: ('*' :: (body ++ ['*', '/']) ++ (cs ++ after)) := by simp
    have hlength : byteLength ('/' :: '*' :: (body ++ '*' :: '/' :: cs)) =
        byteLength ('/' :: '*' :: (body ++ ['*', '/'])) + byteLength cs := by
      rw [← byteLength_append]
      simp
    rw [htext, lexemes_of_scan (scan_block hbody _), Lexed.place_skipped, ih, hlength,
      Nat.add_assoc]

/-- What is trivia up to the end of a text is trivia before another line. -/
theorem Trivia.before_line (h : Trivia [] gap) (rest : List Char) : Trivia ('\n' :: rest) gap := by
  induction h with
  | nil => exact .nil
  | blank hc _ ih => exact .blank hc ih
  | @line body cs hbody hend _ ih =>
    refine .line hbody (fun d hd => ?_) ih
    cases cs with
    | nil => exact (Option.some.inj hd).symm
    | cons e cs => exact hend d hd
  | block hbody _ ih => exact .block hbody ih

theorem tokens_place_ne_nil (offset : Nat) (ls : List Lexeme) :
    (Lexed.place offset ls).tokens ≠ [] := by
  intro hnil
  have hkinds := map_kind_place offset ls
  rw [hnil] at hkinds
  simp at hkinds

/-- A text without tokens consists of trivia. -/
theorem trivia_of_tokenTexts (h : tokenTexts (lexemes cs) = []) : Trivia [] cs := by
  have htiles := tiles_place 0 cs
  have hkinds := map_kind_place 0 (lexemes cs)
  rw [h] at hkinds
  generalize (Lexed.place 0 (lexemes cs)).tokens = tokens at htiles hkinds
  cases htiles with
  | finish hgap => exact hgap
  | token _ _ _ hkind _ => exact absurd (List.cons.inj hkinds).1 hkind

/-! ## Semicolons -/

theorem kind_finishNumber_ne_mark (text : List Char) (more : Nat) (value : Float)
    (f : LexicalFault) (faulty : Bool) (m : Mark) :
    (finishNumber text more value f faulty).kind ≠ some (.mark m) := by
  cases faulty <;> simp [finishNumber, Scan.fault]

theorem kind_scanNumber_ne_mark (c : Char) (cs : List Char) (m : Mark) :
    (scanNumber c cs).kind ≠ some (.mark m) := by
  unfold scanNumber
  split
  · split
    · exact kind_finishNumber_ne_mark _ _ _ _ _ m
    · exact kind_finishNumber_ne_mark _ _ _ _ _ m
  · exact kind_finishNumber_ne_mark _ _ _ _ _ m

theorem kind_scanString_ne_mark (quote : Char) (cs : List Char) (m : Mark) :
    (scanString quote cs).kind ≠ some (.mark m) := by
  unfold scanString
  generalize bodyRun quote cs = body
  obtain ⟨n, stop⟩ := body
  cases stop with
  | quote =>
    dsimp only
    split <;> simp
  | newline | eof => simp

theorem ofWord_ne_mark (word : String) (m : Mark) : TokenKind.ofWord word ≠ .mark m := by
  unfold TokenKind.ofWord
  split <;> simp

theorem longest?_of_scan {m : Mark} (h : (scan c cs).kind = some (.mark m)) :
    Mark.longest? (c :: cs) = some m := by
  unfold scan at h
  split at h
  · cases h
  split at h
  · cases h
  split at h
  · split at h <;> cases h
  split at h
  · exact absurd h (kind_scanString_ne_mark c cs m)
  split at h
  · exact absurd h (kind_scanNumber_ne_mark c cs m)
  split at h
  · exact absurd (Option.some.inj h) (ofWord_ne_mark _ m)
  split at h
  · rename_i found hfound
    obtain rfl := TokenKind.mark.inj (Option.some.inj h)
    exact hfound
  · cases h

theorem eq_of_scan_semicolon (h : (scan c cs).kind = some (.mark .semicolon)) : c = ';' := by
  obtain ⟨after, htext⟩ := Mark.exists_of_longest? (longest?_of_scan h)
  exact (List.cons.inj htext).1

theorem mem_of_mem_tokenTexts
    (h : .mark .semicolon ∈ (tokenTexts (lexemes cs)).map Prod.fst) : ';' ∈ cs := by
  fun_induction lexemes cs with
  | case1 => cases h
  | case2 c cs s ih =>
    have hrest (h : .mark .semicolon ∈ (tokenTexts (lexemes (cs.drop s.more))).map Prod.fst) :
        ';' ∈ c :: cs := List.mem_cons_of_mem _ (List.mem_of_mem_drop (ih h))
    cases hkind : s.kind with
    | none =>
      rw [tokenTexts_cons_of_none hkind] at h
      exact hrest h
    | some k =>
      rw [tokenTexts_cons_of_some hkind, List.map_cons, List.mem_cons] at h
      rcases h with rfl | h
      · obtain rfl := eq_of_scan_semicolon hkind
        exact List.mem_cons_self
      · exact hrest h

theorem place_semicolon (offset : Nat) (hgap : Trivia after gap) :
    Lexed.place offset (lexemes (';' :: (gap ++ after))) =
      let r := Lexed.place (offset + byteLength (';' :: gap)) (lexemes after)
      ⟨⟨.mark .semicolon, ⟨offset, offset + 1⟩⟩ :: r.tokens, r.diagnostics⟩ := by
  have hplace : offset + 1 + byteLength gap = offset + byteLength (';' :: gap) := by
    rw [byteLength_cons, ← Nat.add_assoc]
    rfl
  rw [lexemes_semicolon, Lexed.place, ← hplace, ← place_trivia hgap]
  rfl

/-- A piece before a semicolon is the same piece in a longer text. -/
theorem scan_append_of_mem {more tail : List Char} {kind : Option TokenKind}
    (h : scan c (more ++ tail) = ⟨kind, more.length, []⟩) (hmem : ';' ∈ tail) (rest : List Char) :
    scan c (more ++ (tail ++ rest)) = ⟨kind, more.length, []⟩ := by
  obtain ⟨x, y, rfl⟩ := List.append_of_mem hmem
  rw [← List.append_assoc] at h
  have hlonger := settles_scan c h (by simp) (y ++ rest)
  simpa using hlonger

/-! ## The seam -/

/-- What a line after the last semicolon makes of the tokens before it. -/
theorem place_semicolon_append_line (offset : Nat) (hgap : Trivia [] gap) (rest : List Char) :
    Lexed.place offset (lexemes (';' :: gap ++ '\n' :: rest)) =
      let r := Lexed.place (offset + byteLength (';' :: gap) + 1) (lexemes rest)
      ⟨(Lexed.place offset (lexemes (';' :: gap))).tokens.dropLast ++ r.tokens, r.diagnostics⟩ := by
  have hline := place_semicolon offset (hgap.before_line rest)
  have hend := place_semicolon offset hgap
  dsimp only at hline hend
  rw [place_blank (c := '\n') (by decide)] at hline
  rw [List.append_nil, lexemes_nil] at hend
  rw [List.cons_append, hline, hend]
  rfl

/-- Before the last semicolon, and after it up to the line feed, the pieces of the longer text have
the tokens of the first one. -/
theorem place_append_line (offset : Nat) (hfaults : ∀ l ∈ lexemes cs, l.faults = [])
    (hends : ((tokenTexts (lexemes cs)).map Prod.fst).getLast? = some (.mark .semicolon))
    (rest : List Char) :
    Lexed.place offset (lexemes (cs ++ '\n' :: rest)) =
      let r := Lexed.place (offset + byteLength cs + 1) (lexemes rest)
      ⟨(Lexed.place offset (lexemes cs)).tokens.dropLast ++ r.tokens, r.diagnostics⟩ := by
  fun_induction lexemes cs generalizing offset with
  | case1 => cases hends
  | case2 c cs s ih =>
    have hfirst : (⟨c :: cs.take s.more, s.kind, s.faults⟩ : Lexeme) :: lexemes (cs.drop s.more) =
        lexemes (c :: cs) := by rw [lexemes]
    obtain ⟨hfault, hfaults⟩ := List.forall_mem_cons.1 hfaults
    by_cases htail : tokenTexts (lexemes (cs.drop s.more)) = []
    · -- This piece is the last semicolon.
      have hkind : s.kind = some (.mark .semicolon) := by
        cases hkind : s.kind with
        | none =>
          rw [tokenTexts_cons_of_none hkind, htail] at hends
          cases hends
        | some k =>
          rw [tokenTexts_cons_of_some hkind, htail] at hends
          exact hends
      obtain rfl := eq_of_scan_semicolon hkind
      rw [hfirst]
      exact place_semicolon_append_line offset (trivia_of_tokenTexts htail) rest
    · have hlast : ((tokenTexts (lexemes (cs.drop s.more))).map Prod.fst).getLast? =
          some (.mark .semicolon) := by
        cases hkind : s.kind with
        | none => rwa [tokenTexts_cons_of_none hkind] at hends
        | some k =>
          rw [tokenTexts_cons_of_some hkind, List.map_cons, ← List.singleton_append,
            List.getLast?_append_of_ne_nil _ (by simpa using htail)] at hends
          exact hends
      have hmem : ';' ∈ cs.drop s.more := mem_of_mem_tokenTexts (List.mem_of_getLast? hlast)
      have hlength : (cs.take s.more).length = s.more := by
        refine List.length_take_of_le (Nat.le_of_not_lt fun hlt => ?_)
        rw [List.drop_of_length_le (Nat.le_of_lt hlt)] at hmem
        cases hmem
      have hscan : scan c (cs.take s.more ++ cs.drop s.more) =
          ⟨s.kind, (cs.take s.more).length, []⟩ := by
        rw [List.take_append_drop, hlength, ← hfault]
      have hlonger := lexemes_of_scan (scan_append_of_mem hscan hmem ('\n' :: rest))
      rw [← List.append_assoc, List.take_append_drop] at hlonger
      have hplace : offset + byteLength (c :: cs.take s.more) + byteLength (cs.drop s.more) =
          offset + byteLength (c :: cs) := by
        rw [Nat.add_assoc, ← byteLength_append, List.cons_append, List.take_append_drop]
      have hsome := tokens_place_ne_nil (offset + byteLength (c :: cs.take s.more))
        (lexemes (cs.drop s.more))
      rw [List.cons_append, hlonger, Lexed.place, Lexed.place, ih _ hfaults hlast]
      dsimp only
      rw [hplace, List.dropLast_append_of_ne_nil hsome, List.append_assoc]
      rfl

/-- The tokens of a text without faults that ends with a semicolon, and those of another text on
the lines after it. -/
theorem tokenize_append_line {source : String} (hclean : (tokenize source).diagnostics = [])
    (hends : (tokenize source).tokens.dropLast.getLast?.map Token.kind = some (.mark .semicolon))
    (more : String) :
    tokenize (source ++ "\n" ++ more) =
      let r := (tokenize more).shift (byteLength source.toList + 1)
      ⟨(tokenize source).tokens.dropLast ++ r.tokens, r.diagnostics⟩ := by
  have hlast : ((tokenTexts (lexemes source.toList)).map Prod.fst).getLast? =
      some (.mark .semicolon) := by
    rw [← hends, ← List.getLast?_map, List.map_dropLast, map_kind_tokens, List.dropLast_concat]
  have htext : (source ++ "\n" ++ more).toList = source.toList ++ '\n' :: more.toList := by simp
  have hplace := place_append_line 0 (faults_eq_nil_of_diagnostics hclean) hlast more.toList
  rw [tokenize, htext, hplace, Nat.zero_add, ← Nat.add_zero (byteLength source.toList + 1),
    Lexed.place_shift]
  rfl

end ScriptFold
