import ScriptFold.Proofs.Grammar.EmbeddedStatements
import ScriptFold.Proofs.Grammar.Progress
import ScriptFold.Proofs.Lexeme.Seam

/-!
Programs on the lines after a program.

A program that is read without a complaint and ends with a semicolon is read as before when other
lines follow it, and these are read as if they stood alone, further on. Whatever is wrong with
them does not change what was read before them.
-/

namespace ScriptFold

/-- The cursor at the start of the tokens of a text. -/
def Cursor.start (words : List Token) (finish : Span) : Cursor := ⟨words, finish, .nowhere, 0, []⟩

namespace Grammar

open Cursor ScriptFold.Grammar.Embedding

section Parts

variable {words words' after : List Token} {finish finish' : Span} {m : Move}

/-! ## The parts of a text -/

variable (after finish finish') in
theorem carries_front : (⟨.stay, words.length, some after⟩ : Embedding).Carries
    (.start words finish) (.start (words ++ after) finish') where
  rest := by
    have hstay : words.map (Token.shift 0) = words :=
      List.map_id'' (fun k => congrArg (Token.mk k.kind) k.span.shift_zero) words
    rw [Move.bytes_stay, start, start, hstay, Option.getD_some]
  finish := nofun
  left_le := Nat.le_refl _
  last := fun hlt => absurd hlt (Nat.lt_irrefl _)
  nextId := rfl
  diagnostics := rfl

/-- Where the second part of a text starts, the token read last is one of the first part. -/
theorem carries_back {t : Cursor} (hrest : t.rest = words.map (Token.shift m.bytes))
    (hfinish : t.finish = finish.shift m.bytes) (hnextId : t.nextId = m.ids)
    (hdiagnostics : t.diagnostics = []) :
    (⟨m, words.length, none⟩ : Embedding).Carries (.start words finish) t where
  rest := by rw [hrest, Option.getD_none, List.append_nil, start]
  finish := fun _ => hfinish
  left_le := Nat.le_refl _
  last := fun hlt => absurd hlt (Nat.lt_irrefl _)
  nextId := hnextId
  diagnostics := hdiagnostics

variable (words' finish') in
theorem statements_start_append (hends : ∀ k ∈ words.getLast?, k.IsSemicolon)
    (hclean : (statements false (.start words finish)).next.diagnostics = [])
    (hids : (statements false (.start words finish)).next.nextId = m.ids) :
    let first := statements false (.start words finish)
    let second := statements false (.start words' finish')
    let whole := statements false
      (.start (words ++ words'.map (Token.shift m.bytes)) (finish'.shift m.bytes))
    whole.value = first.value ++ Stmt.moveAll m second.value ∧
    whole.next.diagnostics = second.next.diagnostics.map (·.shift m.bytes) ∧
    whole.next.nextId = m.ids + second.next.nextId := by
  intro first second whole
  obtain ⟨u, hfront, hfinish, hvalue, hnext⟩ := statements_append
    (carries_front (words'.map (Token.shift m.bytes)) finish (finish'.shift m.bytes))
    hclean hends
  have hrest : first.next.rest = [] := rest_program (.start words finish)
  have hback : (⟨m, words'.length, none⟩ : Embedding).Carries (.start words' finish') u := by
    refine carries_back ?_ hfinish ?_ ?_
    · rw [hfront.rest, hrest]
      rfl
    · rw [hfront.nextId, hids]
      exact Nat.zero_add _
    · rw [hfront.diagnostics, hclean]
      rfl
  obtain ⟨hmoved, hend⟩ := statements_agrees false hback (Nat.zero_le _)
  refine ⟨?_, ?_, ?_⟩
  · rw [Stmt.moveAll_stay, hmoved] at hvalue
    exact hvalue
  · rw [← hend.diagnostics, ← hnext]
  · rw [← hend.nextId, ← hnext]

end Parts

end Grammar

/-! ## Texts -/

open Grammar

theorem parseProgram_eq {source : String} {words : List Token} {finish : Span}
    (htokens : (tokenize source).tokens = words ++ [⟨.eof, finish⟩])
    (hwords : ∀ k ∈ words, k.kind ≠ .eof) :
    let p := statements false (.start words finish)
    (parseProgram source).value.body = p.value ∧
    (parseProgram source).diagnostics = (tokenize source).diagnostics ++ p.next.diagnostics ∧
    (parseProgram source).nextId = p.next.nextId := by
  have hstart : Cursor.ofTokens (tokenize source).tokens 0 = .start words finish := by
    rw [htokens, ofTokens_words hwords, Cursor.start]
  rw [← hstart]
  exact ⟨rfl, rfl, rfl⟩

/-- **Programs compose at a semicolon.** Let a text be read without any diagnostic, and let its
last token be a semicolon. Then every other text on the lines after it, well formed or not, is read
as it is read alone: its statements follow those of the first text, moved by the bytes of the first
text and the line feed and by the identities that the first text used; and what is wrong with the
whole is what is wrong with the second text, moved by the same bytes. -/
theorem parseProgram_append_line {source : String} (hclean : (parseProgram source).diagnostics = [])
    (hends : (tokenize source).tokens.dropLast.getLast?.map Token.kind = some (.mark .semicolon))
    (more : String) :
    let m : Move := ⟨byteLength source.toList + 1, (parseProgram source).nextId⟩
    let whole := parseProgram (source ++ "\n" ++ more)
    whole.value.body =
      (parseProgram source).value.body ++ Stmt.moveAll m (parseProgram more).value.body ∧
    whole.diagnostics = (parseProgram more).diagnostics.map (·.shift m.bytes) ∧
    whole.nextId = m.ids + (parseProgram more).nextId := by
  intro m whole
  obtain ⟨words, finish, htokens, hwords⟩ := endsOnce_tokenize source
  obtain ⟨words', finish', htokens', hwords'⟩ := endsOnce_tokenize more
  obtain ⟨hbody, hdiagnostics, hnextId⟩ := parseProgram_eq htokens hwords
  obtain ⟨hbody', hdiagnostics', hnextId'⟩ := parseProgram_eq htokens' hwords'
  obtain ⟨hlexical, hgrammar⟩ := List.append_eq_nil_iff.1 (hdiagnostics.symm.trans hclean)
  have hlexed := tokenize_append_line hlexical hends more
  have hwhole : (tokenize (source ++ "\n" ++ more)).tokens =
      words ++ words'.map (Token.shift m.bytes) ++ [⟨.eof, finish'.shift m.bytes⟩] := by
    rw [hlexed, htokens, List.dropLast_concat, List.append_assoc]
    dsimp only [Lexed.shift]
    rw [htokens', List.map_append]
    rfl
  have hkinds : ∀ k ∈ words ++ words'.map (Token.shift m.bytes), k.kind ≠ .eof := by
    intro k hk
    rcases List.mem_append.1 hk with hk | hk
    · exact hwords k hk
    · obtain ⟨l, hl, rfl⟩ := List.mem_map.1 hk
      exact hwords' l hl
  obtain ⟨hbody₂, hdiagnostics₂, hnextId₂⟩ := parseProgram_eq hwhole hkinds
  have hsemicolon : ∀ k ∈ words.getLast?, k.IsSemicolon := by
    intro k hk
    rw [htokens, List.dropLast_concat, hk] at hends
    exact Option.some.inj hends
  have hids : (statements false (.start words finish)).next.nextId = m.ids := hnextId.symm
  obtain ⟨hvalue, hfaults, hids₂⟩ := statements_start_append words' finish' hsemicolon hgrammar hids
  refine ⟨?_, ?_, ?_⟩
  · rw [hbody₂, hvalue, hbody, hbody']
  · rw [hdiagnostics₂, hfaults, hdiagnostics', List.map_append, hlexed]
    rfl
  · rw [hnextId₂, hids₂, hnextId']

/-- A program of three identities with a comment at its end, before one that is not well formed. -/
theorem parseProgram_append_line_comment :
    (parseProgram "import a from 'm'; const b = a(1); // x").diagnostics = [] ∧
    (tokenize "import a from 'm'; const b = a(1); // x").tokens.dropLast.getLast?.map Token.kind =
      some (.mark .semicolon) ∧
    let m : Move := ⟨40, 3⟩
    let whole := parseProgram ("import a from 'm'; const b = a(1); // x" ++ "\n" ++
      "\x7d const = \"")
    whole.value.body = (parseProgram "import a from 'm'; const b = a(1); // x").value.body ++
      Stmt.moveAll m (parseProgram "\x7d const = \"").value.body ∧
    whole.diagnostics = (parseProgram "\x7d const = \"").diagnostics.map (·.shift m.bytes) ∧
    whole.nextId = m.ids + (parseProgram "\x7d const = \"").nextId := by
  have hclean : (parseProgram "import a from 'm'; const b = a(1); // x").diagnostics = [] := by
    decide +kernel
  have hends : (tokenize "import a from 'm'; const b = a(1); // x").tokens.dropLast.getLast?.map
      Token.kind = some (.mark .semicolon) := by decide +kernel
  have hbytes : byteLength "import a from 'm'; const b = a(1); // x".toList + 1 = 40 := by decide
  have hids : (parseProgram "import a from 'm'; const b = a(1); // x").nextId = 3 := by
    decide +kernel
  have h := parseProgram_append_line hclean hends "\x7d const = \""
  rw [hbytes, hids] at h
  exact ⟨hclean, hends, h⟩

end ScriptFold
