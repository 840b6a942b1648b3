import ScriptFold.Proofs.Literal.Strings

/-!
The tokens of JSON texts.

Reading a text in pieces composes: what a part of a text gives does not depend on what follows,
as long as a comma, a colon or a closing mark does.
-/

namespace ScriptFold

/-- The part `cs` of a text, before `rest`, is read as tokens of some kinds, without a fault. -/
def Lexes (cs : List Char) (kinds : List TokenKind) (rest : List Char) : Prop :=
  ∃ ls, lexemes (cs ++ rest) = ls ++ lexemes rest ∧ ls.filterMap Lexeme.kind = kinds ∧
    ∀ l ∈ ls, l.faults = []

theorem Lexes.nil (rest : List Char) : Lexes [] [] rest := ⟨[], rfl, rfl, by simp⟩

theorem Lexes.append {cs ds rest : List Char} {ks ls : List TokenKind}
    (h₁ : Lexes cs ks (ds ++ rest)) (h₂ : Lexes ds ls rest) :
    Lexes (cs ++ ds) (ks ++ ls) rest := by
  obtain ⟨xs, hxs, hks, hxf⟩ := h₁
  obtain ⟨ys, hys, hls, hyf⟩ := h₂
  refine ⟨xs ++ ys, ?_, ?_, ?_⟩
  · rw [List.append_assoc, hxs, hys, List.append_assoc]
  · rw [List.filterMap_append, hks, hls]
  · intro l hl
    rcases List.mem_append.1 hl with hl | hl
    · exact hxf l hl
    · exact hyf l hl

/-- A piece that the scanner takes as one token. -/
theorem lexes_token (c : Char) (cs : List Char) {rest : List Char} {k : TokenKind}
    (h : scan c (cs ++ rest) = ⟨some k, cs.length, []⟩) : Lexes (c :: cs) [k] rest := by
  refine ⟨[⟨c :: cs, some k, []⟩], ?_, rfl, by simp⟩
  rw [List.cons_append, lexemes, h]
  simp only [List.take_left, List.drop_left, List.singleton_append]

/-- A token of one character in front of others. The brackets, the comma and the colon are tokens
whatever follows them. -/
theorem Lexes.cons {c : Char} {cs rest : List Char} {k : TokenKind} {ks : List TokenKind}
    (h : ∀ t, scan c t = ⟨some k, 0, []⟩) (hcs : Lexes cs ks rest) :
    Lexes (c :: cs) (k :: ks) rest :=
  (lexes_token c [] (h _)).append hcs

/-! ## Marks -/

theorem scan_minus {d : Char} (hd : d.isDigit) (t : List Char) :
    scan '-' (d :: t) = ⟨some (.mark .minus), 0, []⟩ := by
  have hne : ('=' == d) = false := beq_false_of_ne (ne_of_isDigit hd (by decide)).symm
  have hmark : Mark.longest? ('-' :: d :: t) = some .minus := by
    simp [Mark.longest?, Mark.longestFirst, Mark.fits, Mark.spelling, List.isPrefixOf, List.find?,
      hne]
  unfold scan
  rw [hmark]
  rfl

/-! ## Words -/

theorem takeWhile_append_of_head {p : Char → Bool} {cs rest : List Char} (hcs : ∀ x ∈ cs, p x)
    (hrest : rest.head?.any p = false) : (cs ++ rest).takeWhile p = cs := by
  rw [List.takeWhile_append_of_pos hcs]
  cases rest with
  | nil => simp
  | cons x rest =>
    have hx : p x = false := hrest
    simp [hx]

theorem scanWord_of_closes {c : Char} {cs rest : List Char} (hcs : ∀ x ∈ cs, isNamePart x)
    (hrest : (rest.head?.any isNamePart) = false) :
    scanWord c (cs ++ rest) = ⟨some (.ofWord (String.ofList (c :: cs))), cs.length, []⟩ := by
  unfold scanWord
  simp only [takeWhile_append_of_head hcs hrest]

theorem not_isNamePart_head {rest : List Char} (h : Closes rest) :
    (rest.head?.any isNamePart) = false := by
  obtain ⟨c, hc, cs, rfl⟩ := h
  exact not_isNamePart_of_mem_closers c hc

theorem lexes_null {rest : List Char} (h : Closes rest) :
    Lexes "null".toList [.keyword .nullWord] rest := by
  refine lexes_token 'n' ['u', 'l', 'l'] ?_
  have hscan : ∀ t, scan 'n' t = scanWord 'n' t := fun t => rfl
  rw [hscan, scanWord_of_closes (forall_of_all (by decide +kernel)) (not_isNamePart_head h)]
  rfl

theorem lexes_bool (b : Bool) {rest : List Char} (h : Closes rest) :
    Lexes (if b then "true" else "false").toList
      [.keyword (if b then .trueWord else .falseWord)] rest := by
  cases b with
  | true =>
    refine lexes_token 't' ['r', 'u', 'e'] ?_
    have hscan : ∀ t, scan 't' t = scanWord 't' t := fun t => rfl
    rw [hscan, scanWord_of_closes (forall_of_all (by decide +kernel)) (not_isNamePart_head h)]
    rfl
  | false =>
    refine lexes_token 'f' ['a', 'l', 's', 'e'] ?_
    have hscan : ∀ t, scan 'f' t = scanWord 'f' t := fun t => rfl
    rw [hscan, scanWord_of_closes (forall_of_all (by decide +kernel)) (not_isNamePart_head h)]
    rfl

theorem lexes_name (t : List Char) : Lexes ['a'] [.ident "a"] ('(' :: t) := by
  refine lexes_token 'a' [] ?_
  have hscan : ∀ t, scan 'a' t = scanWord 'a' t := fun t => rfl
  have hparen : isNamePart '(' = false := by decide +kernel
  rw [hscan, scanWord_of_closes (by simp) (by simpa using hparen)]
  rfl

/-! ## Strings and numbers -/

theorem lexes_string {s text : String} (h : Json.WritesString s text) (rest : List Char) :
    Lexes text.toList [.string s] rest := by
  obtain ⟨parts, hparts, htext⟩ := h
  rw [htext]
  refine lexes_token '"' (parts.flatten ++ ['"']) ?_
  rw [List.append_assoc, List.singleton_append, scan_string hparts, List.length_append]
  rfl

theorem lexes_numeral {cs rest : List Char} (h : IsNumeral cs) (hrest : Closes rest) :
    Lexes cs [.number ((Number.readUnsigned cs).getD 0.0)] rest := by
  obtain ⟨c, cs, rfl⟩ := List.exists_cons_of_ne_nil h.ne_nil
  exact lexes_token c cs (scan_numeral h hrest)

/-- The tokens of a number: perhaps a sign, and its size. -/
def numberKinds (negative : Bool) (size : Float) : List TokenKind :=
  (if negative then [.mark .minus] else []) ++ [.number size]

theorem lexes_number {negative : Bool} {x : Float} {cs rest : List Char} (h : IsNumeral cs)
    (hx : Number.readUnsigned cs = some x) (hrest : Closes rest) :
    Lexes (Number.signText negative ++ cs) (numberKinds negative x) rest := by
  have hnumeral := lexes_numeral h hrest
  rw [hx, Option.getD_some] at hnumeral
  cases negative with
  | false => exact hnumeral
  | true =>
    obtain ⟨d, cs, rfl⟩ := List.exists_cons_of_ne_nil h.ne_nil
    have hminus : Lexes ['-'] [.mark .minus] (d :: cs ++ rest) :=
      lexes_token '-' [] (scan_minus (isDigit_head_of_numeral h) _)
    exact hminus.append hnumeral

theorem closes_cons {c : Char} (h : c ∈ closers) (cs : List Char) : Closes (c :: cs) :=
  ⟨c, h, cs, rfl⟩

/-- The text has tokens of these kinds wherever it stands as a value. -/
def Reads (text : String) (ks : List TokenKind) : Prop :=
  ∀ rest, Closes rest → Lexes text.toList ks rest

/-- Texts with commas between them have their tokens with commas between them. -/
theorem reads_intercalate {texts : List String} {words : List (List TokenKind)}
    (h : List.Forall₂ Reads texts words) :
    Reads (String.intercalate "," texts) ([.mark .comma].intercalate words) := by
  induction h with
  | nil => exact fun rest _ => Lexes.nil rest
  | @cons text ks texts words htext hrest ih =>
    cases hrest with
    | nil => simpa using htext
    | @cons text' ks' texts words htext' hrest =>
      intro rest hclose
      rw [String.intercalate_cons_cons, List.intercalate_cons_cons, String.toList_append,
        String.toList_append, List.append_assoc, List.append_assoc]
      exact (htext _ (closes_cons (c := ',') (by decide) _)).append
        ((ih rest hclose).cons fun _ => rfl)

/-! ## Whole texts -/

theorem place_of_lexes {cs : List Char} {ks : List TokenKind} (h : Lexes cs ks []) (offset : Nat) :
    (Lexed.place offset (lexemes cs)).diagnostics = [] ∧
      (Lexed.place offset (lexemes cs)).tokens.map Token.kind = ks ++ [.eof] := by
  obtain ⟨ls, hls, rfl, hfaults⟩ := h
  rw [List.append_nil, lexemes, List.append_nil] at hls
  rw [hls]
  clear hls
  induction ls generalizing offset with
  | nil => exact ⟨rfl, rfl⟩
  | cons l ls ih =>
    have hl : l.faults = [] := hfaults l List.mem_cons_self
    obtain ⟨hdiagnostics, hkinds⟩ :=
      ih (offset + byteLength l.text) fun x hx => hfaults x (List.mem_cons_of_mem _ hx)
    constructor
    · simp [Lexed.place, hl, hdiagnostics]
    · simp only [Lexed.place, List.map_append, hkinds, List.filterMap_cons]
      cases l.kind <;> simp

/-- The text is without faults and has the tokens of these kinds. -/
def HasKinds (source : String) (ks : List TokenKind) : Prop :=
  (tokenize source).diagnostics = [] ∧ (tokenize source).tokens.map Token.kind = ks ++ [.eof]

theorem hasKinds_of_lexes {source : String} {ks : List TokenKind} (h : Lexes source.toList ks []) :
    HasKinds source ks := place_of_lexes h 0

end ScriptFold
