import ScriptFold.Proofs.Expr.Moved
import ScriptFold.Proofs.Grammar.Loops

/-!
Reading a text inside a longer one.

A cursor on the tokens of a text is carried to a cursor on those of a longer text, where they stand
further on and other tokens follow them. As long as a token of the text is left, both cursors see
the same; so every step from the first one has its counterpart from the second one, up to the
place where the text ends. Recoveries look for tokens ahead. They find the same ones, unless they
run into the end.
-/

namespace ScriptFold.Grammar

open Cursor

/-- How a text stands in a longer one. -/
structure Embedding where
  move : Move
  /-- How many tokens the text has. -/
  size : Nat
  /-- The tokens that follow the text; `none` if the longer text ends where the text does. -/
  after : Option (List Token)

namespace Embedding

def margin (g : Embedding) : Nat := if g.after.isSome then 1 else 0

theorem margin_le_one (g : Embedding) : g.margin ≤ 1 := by
  unfold margin
  split <;> omega

/-- A cursor from which a token can be taken sees the text. -/
theorem margin_le_of_lt (g : Embedding) {s t : Cursor} (h : t.left < s.left) :
    g.margin ≤ s.left := by
  have hmargin := g.margin_le_one
  omega

theorem margin_le_of_isAt (g : Embedding) {s : Cursor} {m : Mark} (h : s.isAt m) :
    g.margin ≤ s.left := by
  cases hrest : s.rest with
  | nil =>
    rw [isAt, kind, hrest] at h
    cases h
  | cons k rest =>
    have hmargin := g.margin_le_one
    rw [left, hrest, List.length_cons]
    omega

/-- The cursor `t` stands in the longer text where `s` stands in the text. Before the first token
of the text, the token read last is not one of the text. -/
structure Carries (g : Embedding) (s t : Cursor) : Prop where
  rest : t.rest = s.rest.map (Token.shift g.move.bytes) ++ g.after.getD []
  finish : g.after = none → t.finish = s.finish.shift g.move.bytes
  left_le : s.left ≤ g.size
  last : s.left < g.size → t.last = s.last.shift g.move.bytes
  nextId : t.nextId = g.move.ids + s.nextId
  diagnostics : t.diagnostics = s.diagnostics.map (·.shift g.move.bytes)

variable {g : Embedding} {s t : Cursor}

namespace Carries

/-! ## What cursors see -/

theorem cases_rest (h : g.Carries s t) (hleft : g.margin ≤ s.left) :
    (s.rest = [] ∧ t.rest = [] ∧ g.after = none) ∨
      ∃ k rest more, s.rest = k :: rest ∧ t.rest = k.shift g.move.bytes :: more := by
  have hrest := h.rest
  cases hs : s.rest with
  | nil =>
    cases hafter : g.after with
    | none =>
      rw [hs, hafter] at hrest
      exact .inl ⟨rfl, hrest, rfl⟩
    | some after =>
      have hmargin : g.margin = 1 := by rw [margin, hafter]; rfl
      rw [left, hs, hmargin] at hleft
      exact absurd hleft (by decide)
  | cons k rest =>
    rw [hs, List.map_cons, List.cons_append] at hrest
    exact .inr ⟨k, rest, _, rfl, hrest⟩

theorem kind_eq (h : g.Carries s t) (hleft : g.margin ≤ s.left) : t.kind = s.kind := by
  rcases h.cases_rest hleft with ⟨hs, ht, -⟩ | ⟨k, rest, more, hs, ht⟩
  · rw [kind, kind, hs, ht]
  · rw [kind, kind, hs, ht]
    rfl

theorem span_eq (h : g.Carries s t) (hleft : g.margin ≤ s.left) :
    t.span = s.span.shift g.move.bytes := by
  rcases h.cases_rest hleft with ⟨hs, ht, hafter⟩ | ⟨k, rest, more, hs, ht⟩
  · rw [span, span, hs, ht]
    exact h.finish hafter
  · rw [span, span, hs, ht]
    rfl

theorem isAt_eq (h : g.Carries s t) (hleft : g.margin ≤ s.left) (m : Mark) :
    t.isAt m = s.isAt m := by
  rw [isAt, isAt, h.kind_eq hleft]

theorem atEnd_eq (h : g.Carries s t) (hleft : g.margin ≤ s.left) : t.atEnd = s.atEnd := by
  rcases h.cases_rest hleft with ⟨hs, ht, -⟩ | ⟨k, rest, more, hs, ht⟩
  · rw [atEnd, atEnd, hs, ht]
  · rw [atEnd, atEnd, hs, ht]
    rfl

/-! ## Steps -/

theorem take (h : g.Carries s t) (hleft : g.margin ≤ s.left) {β : Type}
    (test : TokenKind → Option β) :
    (s.take test = none ∧ t.take test = none) ∨
      ∃ b span s₁ hs t₁ ht, s.take test = some (b, span, ⟨s₁, hs⟩) ∧
        t.take test = some (b, span.shift g.move.bytes, ⟨t₁, ht⟩) ∧ g.Carries s₁ t₁ := by
  have hcases := h.cases_rest hleft
  obtain ⟨rest, finish, last, nextId, diagnostics⟩ := s
  obtain ⟨rest', finish', last', nextId', diagnostics'⟩ := t
  obtain ⟨rfl, rfl, -⟩ | ⟨k, rest, more, rfl, rfl⟩ := hcases
  · exact .inl ⟨rfl, rfl⟩
  have hsize := h.left_le
  have hmore := (List.cons.inj h.rest).2
  cases htest : test k.kind with
  | none => exact .inl ⟨by simp [Cursor.take, htest], by simp [Cursor.take, Token.shift, htest]⟩
  | some b =>
    refine .inr ⟨b, k.span, ⟨rest, finish, k.span, nextId, diagnostics⟩, ?_,
      ⟨more, finish', k.span.shift g.move.bytes, nextId', diagnostics'⟩, ?_, ?_, ?_, ?_⟩
    · exact Nat.lt_succ_self _
    · exact Nat.lt_succ_self _
    · simp [Cursor.take, htest]
    · simp [Cursor.take, Token.shift, htest]
    · exact ⟨hmore, h.finish, Nat.le_of_succ_le hsize, fun _ => rfl, h.nextId, h.diagnostics⟩

theorem eat (h : g.Carries s t) (hleft : g.margin ≤ s.left) (m : Mark) :
    (s.eat m = none ∧ t.eat m = none) ∨
      ∃ s₁ hs t₁ ht, s.eat m = some ⟨s₁, hs⟩ ∧ t.eat m = some ⟨t₁, ht⟩ ∧ g.Carries s₁ t₁ := by
  rcases h.take hleft fun k => if k = .mark m then some () else none with
    ⟨hs, ht⟩ | ⟨b, span, s₁, hlt, t₁, hlt', hs, ht, h₁⟩
  · exact .inl ⟨by rw [Cursor.eat, hs]; rfl, by rw [Cursor.eat, ht]; rfl⟩
  · exact .inr ⟨s₁, hlt, t₁, hlt', by rw [Cursor.eat, hs]; rfl, by rw [Cursor.eat, ht]; rfl, h₁⟩

theorem eatWord (h : g.Carries s t) (hleft : g.margin ≤ s.left) (w : Keyword) :
    (s.eatWord w = none ∧ t.eatWord w = none) ∨
      ∃ s₁ hs t₁ ht, s.eatWord w = some ⟨s₁, hs⟩ ∧ t.eatWord w = some ⟨t₁, ht⟩ ∧
        g.Carries s₁ t₁ := by
  rcases h.take hleft fun k => if k = .keyword w then some () else none with
    ⟨hs, ht⟩ | ⟨b, span, s₁, hlt, t₁, hlt', hs, ht, h₁⟩
  · exact .inl ⟨by rw [Cursor.eatWord, hs]; rfl, by rw [Cursor.eatWord, ht]; rfl⟩
  · exact .inr ⟨s₁, hlt, t₁, hlt', by rw [Cursor.eatWord, hs]; rfl, by
      rw [Cursor.eatWord, ht]; rfl, h₁⟩

theorem binding (h : g.Carries s t) (hleft : g.margin ≤ s.left) :
    (s.binding = none ∧ t.binding = none) ∨
      ∃ name s₁ hs t₁ ht, s.binding = some (name, ⟨s₁, hs⟩) ∧
        t.binding = some (name.move g.move, ⟨t₁, ht⟩) ∧ g.Carries s₁ t₁ := by
  rcases h.take hleft TokenKind.binding? with
    ⟨hs, ht⟩ | ⟨b, span, s₁, hlt, t₁, hlt', hs, ht, h₁⟩
  · exact .inl ⟨by rw [Cursor.binding, hs]; rfl, by rw [Cursor.binding, ht]; rfl⟩
  · exact .inr ⟨⟨b, span⟩, s₁, hlt, t₁, hlt', by rw [Cursor.binding, hs]; rfl, by
      rw [Cursor.binding, ht]; rfl, h₁⟩

theorem report (h : g.Carries s t) (d : Diagnostic) :
    g.Carries (s.report d) (t.report (d.shift g.move.bytes)) where
  rest := h.rest
  finish := h.finish
  left_le := h.left_le
  last := h.last
  nextId := h.nextId
  diagnostics := by
    rw [Cursor.report, Cursor.report, h.diagnostics, List.map_append]
    rfl

theorem complain (h : g.Carries s t) (hleft : g.margin ≤ s.left) (c : Complaint) :
    g.Carries (s.complain c) (t.complain c) := by
  rw [Cursor.complain, Cursor.complain, h.span_eq hleft]
  exact h.report (c.diagnostic s.span)

theorem node (h : g.Carries s t) (span span' : Span) :
    g.Carries (s.node span).2 (t.node span').2 where
  rest := h.rest
  finish := h.finish
  left_le := h.left_le
  last := h.last
  nextId := congrArg (· + 1) h.nextId
  diagnostics := h.diagnostics

theorem node_eq (h : g.Carries s t) (span : Span) :
    (t.node (span.shift g.move.bytes)).1 = (s.node span).1.move g.move := by
  rw [Cursor.node, Cursor.node, h.nextId]
  rfl

theorem advance (h : g.Carries s t) (hleft : g.margin ≤ s.advance.left) :
    g.Carries s.advance t.advance := by
  have hle := s.left_advance
  rcases h.cases_rest (by omega) with ⟨hs, ht, -⟩ | ⟨k, rest, more, hs, ht⟩
  · rw [Cursor.advance, Cursor.advance, hs, ht]
    exact h
  · have hmore := h.rest
    rw [hs, ht, List.map_cons, List.cons_append] at hmore
    have hsize := h.left_le
    rw [left, hs] at hsize
    rw [Cursor.advance, Cursor.advance, hs, ht]
    exact ⟨(List.cons.inj hmore).2, h.finish, Nat.le_of_succ_le hsize, fun _ => rfl, h.nextId,
      h.diagnostics⟩

theorem skip {n : Nat} (h : g.Carries s t) (hleft : g.margin ≤ (s.skip n).left) :
    g.Carries (s.skip n) (t.skip n) := by
  induction n generalizing s t with
  | zero => exact h
  | succ n ih =>
    rw [Cursor.skip, left_skip] at hleft
    rw [Cursor.skip, Cursor.skip]
    exact ih (h.advance (by omega)) (by rw [left_skip]; exact hleft)

/-- The semicolon after what was read, if there is one, is still the text's own. -/
theorem eatSemicolon (h : g.Carries s t) (hleft : g.margin ≤ s.left) :
    g.Carries s.eatSemicolon t.eatSemicolon := by
  rcases h.eat hleft .semicolon with ⟨hs, ht⟩ | ⟨s₁, _, t₁, _, hs, ht, h₁⟩
  · rw [Cursor.eatSemicolon, Cursor.eatSemicolon, hs, ht]
    exact h
  · rw [Cursor.eatSemicolon, Cursor.eatSemicolon, hs, ht]
    exact h₁

end Carries

/-! ## Searches -/

section Searches

variable {tokens more : List Token} (n : Nat)

theorem runToClosing_append (d : Delimiter) {depth : Nat}
    (h : runToClosing d depth tokens < tokens.length) :
    runToClosing d depth (tokens ++ more) = runToClosing d depth tokens := by
  induction tokens generalizing depth with
  | nil => cases h
  | cons k rest ih =>
    simp only [List.cons_append, runToClosing, List.length_cons] at h ⊢
    split
    · rename_i hopening
      rw [if_pos hopening] at h
      rw [ih (by omega)]
    rename_i hopening
    rw [if_neg hopening] at h
    split
    · rename_i hclosing
      rw [if_pos hclosing] at h
      split
      · rfl
      · rename_i hdepth
        rw [if_neg hdepth] at h
        rw [ih (by omega)]
    rename_i hclosing
    rw [if_neg hclosing] at h
    split
    · rfl
    · rename_i hend
      rw [if_neg hend] at h
      rw [ih (by omega)]

theorem runToClosing_shift (d : Delimiter) (depth : Nat) :
    runToClosing d depth (tokens.map (Token.shift n)) = runToClosing d depth tokens := by
  induction tokens generalizing depth with
  | nil => rfl
  | cons k rest ih => simp only [List.map_cons, runToClosing, Token.shift, ih]

theorem runToComma_append {closing : Mark} (h : runToComma closing tokens < tokens.length) :
    runToComma closing (tokens ++ more) = runToComma closing tokens := by
  unfold runToComma at h ⊢
  rw [List.takeWhile_append, if_neg (Nat.ne_of_lt h)]

theorem runToComma_shift (closing : Mark) :
    runToComma closing (tokens.map (Token.shift n)) = runToComma closing tokens := by
  unfold runToComma
  rw [List.takeWhile_map, List.length_map]
  rfl

theorem runToStatement_append (h : runToStatement tokens < tokens.length) :
    runToStatement (tokens ++ more) = runToStatement tokens := by
  induction tokens with
  | nil => cases h
  | cons k rest ih =>
    cases rest with
    | nil =>
      -- The search does not stop before the last token.
      simp only [runToStatement, List.length_singleton] at h
      split at h <;> omega
    | cons l rest =>
      have hcons (tail : List Token) : runToStatement (k :: l :: tail) =
          if k.kind = .mark .semicolon ∨ k.kind = .mark .rbrace ∨
            (l.kind = .mark .rbrace || startsStatement l.kind) = true then 1
          else runToStatement (l :: tail) + 1 := rfl
      rw [List.cons_append, List.cons_append, hcons, hcons]
      rw [hcons, List.length_cons] at h
      split
      · rfl
      · rename_i hstops
        rw [if_neg hstops] at h
        rw [← ih (by omega), List.cons_append]

theorem runToStatement_shift :
    runToStatement (tokens.map (Token.shift n)) = runToStatement tokens := by
  induction tokens with
  | nil => rfl
  | cons k rest ih =>
    have hhead : (rest.map (Token.shift n)).head?.any
        (fun next => next.kind = .mark .rbrace || startsStatement next.kind) =
          rest.head?.any fun next => next.kind = .mark .rbrace || startsStatement next.kind := by
      cases rest <;> rfl
    simp only [List.map_cons, runToStatement, Token.shift, hhead, ih]

end Searches

namespace Carries

/-- A search that only looks at tokens before the place that it finds, finds the same place. -/
theorem skip_search (h : g.Carries s t) {search : List Token → Nat}
    (happend : ∀ {tokens more}, search tokens < tokens.length →
      search (tokens ++ more) = search tokens)
    (hshift : ∀ {tokens}, search (tokens.map (Token.shift g.move.bytes)) = search tokens)
    (hleft : g.margin ≤ (s.skip (search s.rest)).left) :
    g.Carries (s.skip (search s.rest)) (t.skip (search t.rest)) := by
  have hsearch : search t.rest = search s.rest := by
    rw [h.rest]
    cases hafter : g.after with
    | none => rw [Option.getD_none, List.append_nil, hshift]
    | some after =>
      have hmargin : g.margin = 1 := by rw [margin, hafter]; rfl
      rw [left_skip, hmargin, left] at hleft
      rw [Option.getD_some, happend (by rw [hshift, List.length_map]; omega), hshift]
  rw [hsearch]
  exact h.skip hleft

theorem toStatement (h : g.Carries s t) (hleft : g.margin ≤ s.toStatement.left) :
    g.Carries s.toStatement t.toStatement :=
  h.skip_search runToStatement_append (runToStatement_shift _) hleft

end Carries

/-! ## Results -/

/-- The second result is the first one, moved, if the text does not end with the first one. -/
def Agrees {α : Type} (g : Embedding) (move : α → α) (p : Parsed α s) (q : Parsed α t) : Prop :=
  g.margin ≤ p.next.left → q.value = move p.value ∧ g.Carries p.next q.next

namespace Agrees

variable {α : Type} {move : α → α} {p : Parsed α s} {q : Parsed α t} {x y : α} {s₁ t₁ : Cursor}
  {hs : s₁.left ≤ s.left} {ht : t₁.left ≤ t.left}

theorem of_start (h : g.margin ≤ s.left → g.Agrees move p q) : g.Agrees move p q := fun hleft =>
  h (Nat.le_trans hleft p.le) hleft

theorem map {β : Type} {f : α → β} {move' : β → β} (h : g.Agrees move p q)
    (hf : ∀ x, f (move x) = move' (f x)) : g.Agrees move' (p.map f) (q.map f) := fun hleft =>
  (h hleft).imp_left fun hvalue => by rw [Parsed.map, Parsed.map, ← hf, ← hvalue]

/-- A token after the first result shows that the results agree. -/
theorem take (h : g.Agrees move (⟨x, s₁, hs⟩ : Parsed α s) (⟨y, t₁, ht⟩ : Parsed α t)) {β : Type}
    (test : TokenKind → Option β) :
    (s₁.take test = none ∧ (g.margin ≤ s₁.left → t₁.take test = none)) ∨
      ∃ b span s₂ hs₂ t₂ ht₂, s₁.take test = some (b, span, ⟨s₂, hs₂⟩) ∧
        t₁.take test = some (b, span.shift g.move.bytes, ⟨t₂, ht₂⟩) ∧ g.Carries s₂ t₂ ∧
        y = move x := by
  cases hs₁ : s₁.take test with
  | none =>
    refine .inl ⟨rfl, fun hleft => ?_⟩
    obtain ⟨-, ht₁⟩ | ⟨b, span, s₂, _, t₂, _, hs', -, -⟩ := (h hleft).2.take hleft test
    · exact ht₁
    · cases hs₁.symm.trans hs'
  | some found =>
    obtain ⟨b, span, s₂, hlt⟩ := found
    have hleft := g.margin_le_of_lt hlt
    obtain ⟨hvalue, hnext⟩ := h hleft
    obtain ⟨hs', -⟩ | ⟨b', span', s₂', _, t₂, hlt', hs', ht₁, h₂⟩ := hnext.take hleft test
    · cases hs₁.symm.trans hs'
    · cases hs₁.symm.trans hs'
      exact .inr ⟨b, span, s₂, hlt, t₂, hlt', rfl, ht₁, h₂, hvalue⟩

theorem eatWord (h : g.Agrees move (⟨x, s₁, hs⟩ : Parsed α s) (⟨y, t₁, ht⟩ : Parsed α t))
    (w : Keyword) :
    (s₁.eatWord w = none ∧ (g.margin ≤ s₁.left → t₁.eatWord w = none)) ∨
      ∃ s₂ hs₂ t₂ ht₂, s₁.eatWord w = some ⟨s₂, hs₂⟩ ∧ t₁.eatWord w = some ⟨t₂, ht₂⟩ ∧
        g.Carries s₂ t₂ ∧ y = move x := by
  rcases h.take fun k => if k = .keyword w then some () else none with
    ⟨hs₁, ht₁⟩ | ⟨b, span, s₂, hlt, t₂, hlt', hs₁, ht₁, h₂, hvalue⟩
  · exact .inl ⟨by rw [Cursor.eatWord, hs₁]; rfl, fun hleft => by
      rw [Cursor.eatWord, ht₁ hleft]; rfl⟩
  · exact .inr ⟨s₂, hlt, t₂, hlt', by rw [Cursor.eatWord, hs₁]; rfl, by
      rw [Cursor.eatWord, ht₁]; rfl, h₂, hvalue⟩

theorem eat (h : g.Agrees move (⟨x, s₁, hs⟩ : Parsed α s) (⟨y, t₁, ht⟩ : Parsed α t)) (m : Mark) :
    (s₁.eat m = none ∧ (g.margin ≤ s₁.left → t₁.eat m = none)) ∨
      ∃ s₂ hs₂ t₂ ht₂, s₁.eat m = some ⟨s₂, hs₂⟩ ∧ t₁.eat m = some ⟨t₂, ht₂⟩ ∧
        g.Carries s₂ t₂ ∧ y = move x := by
  rcases h.take fun k => if k = .mark m then some () else none with
    ⟨hs₁, ht₁⟩ | ⟨b, span, s₂, hlt, t₂, hlt', hs₁, ht₁, h₂, hvalue⟩
  · exact .inl ⟨by rw [Cursor.eat, hs₁]; rfl, fun hleft => by rw [Cursor.eat, ht₁ hleft]; rfl⟩
  · exact .inr ⟨s₂, hlt, t₂, hlt', by rw [Cursor.eat, hs₁]; rfl, by rw [Cursor.eat, ht₁]; rfl, h₂,
      hvalue⟩

end Agrees

namespace Carries

theorem expect (h : g.Carries s t) (wanted : TokenKind) :
    g.Agrees id (s.expect wanted) (t.expect wanted) := by
  refine .of_start fun hstart _ => ?_
  unfold Cursor.expect
  rcases h.take hstart fun k => if k = wanted then some () else none with
    ⟨hs, ht⟩ | ⟨_, span, s₁, _, t₁, _, hs, ht, h₁⟩
  · simp only [hs, ht, h.kind_eq hstart]
    exact ⟨rfl, h.complain hstart _⟩
  · simp only [hs, ht]
    exact ⟨rfl, h₁⟩

theorem expectBinding (h : g.Carries s t) :
    g.Agrees (Option.map (.move g.move)) s.expectBinding t.expectBinding := by
  refine .of_start fun hstart _ => ?_
  unfold Cursor.expectBinding
  rcases h.binding hstart with ⟨hs, ht⟩ | ⟨name, s₁, _, t₁, _, hs, ht, h₁⟩
  · simp only [hs, ht, h.kind_eq hstart]
    exact ⟨rfl, h.complain hstart _⟩
  · simp only [hs, ht]
    exact ⟨rfl, h₁⟩

theorem closing (h : g.Carries s t) (d : Delimiter) (opened : Span) :
    g.Agrees id (s.closing d opened) (t.closing d (opened.shift g.move.bytes)) := by
  refine .of_start fun hstart hleft => ?_
  unfold Cursor.closing at hleft ⊢
  rcases h.eat hstart d.closing with ⟨hs, ht⟩ | ⟨s₁, _, t₁, _, hs, ht, h₁⟩
  · simp only [hs, ht] at hleft ⊢
    -- The text does not end at the place where the search stops.
    have hvisible : g.margin ≤ ((s.report (Complaint.unclosed d opened s.span s.kind)).skip
        (runToClosing d 0 s.rest)).left := by
      split at hleft
      · rename_i hlt _
        exact Nat.le_trans hleft (Nat.le_of_lt hlt)
      · exact hleft
    have hreport : (Complaint.unclosed d opened s.span s.kind).shift g.move.bytes =
        Complaint.unclosed d (opened.shift g.move.bytes) t.span t.kind := by
      rw [h.span_eq hstart, h.kind_eq hstart]
      rfl
    have h₁ : g.Carries
        ((s.report (Complaint.unclosed d opened s.span s.kind)).skip (runToClosing d 0 s.rest))
        ((t.report (Complaint.unclosed d (opened.shift g.move.bytes) t.span t.kind)).skip
          (runToClosing d 0 t.rest)) := by
      rw [← hreport]
      exact (h.report (Complaint.unclosed d opened s.span s.kind)).skip_search
        (runToClosing_append d) (runToClosing_shift _ d 0) hvisible
    rcases h₁.eat hvisible d.closing with ⟨hs₂, ht₂⟩ | ⟨s₂, _, t₂, _, hs₂, ht₂, h₂⟩
    · simp only [hs₂, ht₂]
      exact ⟨rfl, h₁⟩
    · simp only [hs₂, ht₂]
      exact ⟨rfl, h₂⟩
  · simp only [hs, ht]
    exact ⟨rfl, h₁⟩

section Lists

variable {α : Type} {move : α → α} {closing : Mark} {n n' : Nat}
  {item : (u : Cursor) → u.left ≤ n → Parsed (Option α) u}
  {item' : (u : Cursor) → u.left ≤ n' → Parsed (Option α) u}

variable (closing item) in
theorem commaList_eq (hs : s.left ≤ n) (hend : ¬(s.isAt closing ∨ s.atEnd)) :
    ((s.commaList closing n item hs).value, (s.commaList closing n item hs).next) =
      match nextItem closing (item s hs) with
      | none => ((item s hs).value.toList, pastItem closing (item s hs))
      | some ⟨u, hu⟩ =>
        let more := u.commaList closing n item (Nat.le_trans (Nat.le_of_lt hu) hs)
        ((item s hs).value.toList ++ more.value, more.next) := by
  have h : commaLoop closing n item ([], ⟨s, hs⟩) = _ := commaLoop_eq closing [] hs hend
  simp only [commaLoop, List.nil_append] at h
  refine h.trans ?_
  cases nextItem closing (item s hs) <;> rfl

theorem pastItem {p : Parsed (Option α) s} {q : Parsed (Option α) t}
    (h : g.Agrees (Option.map move) p q) (hleft : g.margin ≤ (pastItem closing p).left) :
    q.value = p.value.map move ∧
      g.Carries (Grammar.pastItem closing p) (Grammar.pastItem closing q) := by
  unfold Grammar.pastItem at hleft ⊢
  by_cases hfound : p.value.isSome
  · rw [if_pos hfound] at hleft ⊢
    obtain ⟨hvalue, h₁⟩ := h hleft
    rw [if_pos (by rw [hvalue, Option.isSome_map]; exact hfound)]
    exact ⟨hvalue, h₁⟩
  · rw [if_neg hfound] at hleft ⊢
    have hnext : g.margin ≤ p.next.left := by
      rw [left_skip] at hleft
      omega
    obtain ⟨hvalue, h₁⟩ := h hnext
    rw [if_neg (by rw [hvalue, Option.isSome_map]; exact hfound)]
    exact ⟨hvalue, h₁.skip_search runToComma_append (runToComma_shift _ closing) hleft⟩

variable (closing) in
/-- The items between commas agree if single items do. -/
theorem commaList (hitem : ∀ u hu v hv, g.Carries u v →
      g.Agrees (Option.map move) (item u hu) (item' v hv))
    {s t : Cursor} (h : g.Carries s t) (hs : s.left ≤ n) (ht : t.left ≤ n') :
    g.Agrees (List.map move) (s.commaList closing n item hs) (t.commaList closing n' item' ht) := by
  refine .of_start fun hstart hleft => ?_
  have hstop : t.isAt closing ∨ t.atEnd ↔ s.isAt closing ∨ s.atEnd := by
    rw [h.isAt_eq hstart, h.atEnd_eq hstart]
  by_cases hend : s.isAt closing ∨ s.atEnd
  · rw [Cursor.commaList.eq_def closing n item s, if_pos hend,
      Cursor.commaList.eq_def closing n' item' t, if_pos (hstop.2 hend)]
    exact ⟨rfl, h⟩
  have hs₁ := commaList_eq closing item hs hend
  have ht₁ := commaList_eq closing item' ht (mt hstop.1 hend)
  have h₁ := hitem s hs t ht h
  have hvisible : g.margin ≤ (Grammar.pastItem closing (item s hs)).left := by
    cases heat : (Grammar.pastItem closing (item s hs)).eat .comma with
    | none =>
      simp only [nextItem, heat, Option.map_none] at hs₁
      rw [← (Prod.mk.inj hs₁).2]
      exact hleft
    | some u =>
      have hlt := u.2
      have hmargin := g.margin_le_one
      omega
  obtain ⟨hvalue, hpast⟩ := pastItem h₁ hvisible
  rcases hpast.eat hvisible .comma with ⟨hs₂, ht₂⟩ | ⟨u, hu, v, hv, hs₂, ht₂, h₂⟩
  · simp only [nextItem, hs₂, ht₂, Option.map_none] at hs₁ ht₁
    obtain ⟨hsvalue, hsnext⟩ := Prod.mk.inj hs₁
    obtain ⟨htvalue, htnext⟩ := Prod.mk.inj ht₁
    rw [hsvalue, hsnext, htvalue, htnext, hvalue]
    refine ⟨?_, hpast⟩
    cases (item s hs).value <;> rfl
  · have hlt : u.left < s.left := Nat.lt_of_lt_of_le hu (left_pastItem_le closing _)
    simp only [nextItem, hs₂, ht₂, Option.map_some] at hs₁ ht₁
    obtain ⟨hsvalue, hsnext⟩ := Prod.mk.inj hs₁
    obtain ⟨htvalue, htnext⟩ := Prod.mk.inj ht₁
    rw [hsnext] at hleft
    obtain ⟨hmore, h₃⟩ := commaList hitem h₂ _ _ hleft
    rw [hsvalue, hsnext, htvalue, htnext, hvalue, hmore, List.map_append]
    refine ⟨?_, h₃⟩
    cases (item s hs).value <;> rfl
termination_by s.left

end Lists

end Carries

end Embedding

end ScriptFold.Grammar
