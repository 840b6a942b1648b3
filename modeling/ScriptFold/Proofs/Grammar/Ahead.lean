import ScriptFold.Grammar.Source

/-!
Reading tokens that are known.

Where the kinds of the tokens ahead are known, a step of a cursor is known as well: whether a token
is taken, and which tokens are ahead then. Spans and identities do not matter to it.
-/

namespace ScriptFold

namespace Cursor

/-- The kinds of the tokens that are still to be read. -/
def ahead (s : Cursor) : List TokenKind := s.rest.map Token.kind

/-- Reading moved from one cursor to another without a complaint, and some tokens are left. -/
structure Reaches (s t : Cursor) (ks : List TokenKind) : Prop where
  ahead : t.ahead = ks
  diagnostics : t.diagnostics = s.diagnostics

theorem Reaches.trans {s t u : Cursor} {ks ls : List TokenKind} (h₁ : s.Reaches t ks)
    (h₂ : t.Reaches u ls) : s.Reaches u ls :=
  ⟨h₂.ahead, h₂.diagnostics.trans h₁.diagnostics⟩

theorem reaches_node {s t : Cursor} {ks : List TokenKind} (h : s.Reaches t ks) (span : Span) :
    s.Reaches (t.node span).2 ks := ⟨h.ahead, h.diagnostics⟩

theorem take_of_some {β : Type} (test : TokenKind → Option β) {s : Cursor} {k : TokenKind}
    {ks : List TokenKind} {b : β} (hs : s.ahead = k :: ks) (hk : test k = some b) :
    ∃ span t h, s.take test = some (b, span, ⟨t, h⟩) ∧ s.Reaches t ks := by
  obtain ⟨rest, finish, last, nextId, diagnostics⟩ := s
  cases rest with
  | nil => cases hs
  | cons t rest =>
    obtain ⟨hkind, hrest⟩ := List.cons.inj hs
    subst hkind
    refine ⟨t.span, ⟨rest, finish, t.span, nextId, diagnostics⟩, ?_, ?_, hrest, rfl⟩
    · simp [left]
    · simp [take, hk]

theorem take_of_none {β : Type} {test : TokenKind → Option β} {s : Cursor}
    (h : ∀ k ∈ s.ahead.head?, test k = none) : s.take test = none := by
  obtain ⟨rest, finish, last, nextId, diagnostics⟩ := s
  cases rest with
  | nil => rfl
  | cons t rest => simp [take, h t.kind rfl]

theorem eat_of_ahead {m : Mark} {s : Cursor} {ks : List TokenKind}
    (hs : s.ahead = .mark m :: ks) : ∃ t h, s.eat m = some ⟨t, h⟩ ∧ s.Reaches t ks := by
  obtain ⟨span, t, h, htake, ht⟩ :=
    take_of_some (fun k => if k = .mark m then some () else none) hs (if_pos rfl)
  exact ⟨t, h, by rw [eat, htake]; rfl, ht⟩

theorem eat_of_ne {m : Mark} {s : Cursor} (h : ∀ k ∈ s.ahead.head?, k ≠ .mark m) :
    s.eat m = none := by
  rw [eat, take_of_none fun k hk => if_neg (h k hk)]
  rfl

theorem kind_of_ahead {s : Cursor} {k : TokenKind} {ks : List TokenKind} (h : s.ahead = k :: ks) :
    s.kind = k := by
  obtain ⟨rest, finish, last, nextId, diagnostics⟩ := s
  cases rest with
  | nil => cases h
  | cons t rest => exact (List.cons.inj h).1

theorem isAt_of_ahead {m : Mark} {s : Cursor} {ks : List TokenKind}
    (h : s.ahead = .mark m :: ks) : s.isAt m := by
  rw [isAt, kind_of_ahead h]
  exact decide_eq_true rfl

theorem not_isAt_of_ne {m : Mark} {s : Cursor} (h : ∀ k ∈ s.ahead.head?, k ≠ .mark m) :
    ¬s.isAt m := by
  intro hat
  have hkind : s.kind = .mark m := of_decide_eq_true hat
  obtain ⟨rest, finish, last, nextId, diagnostics⟩ := s
  cases rest with
  | nil => cases hkind
  | cons t rest => exact h t.kind rfl hkind

theorem atEnd_of_ahead {s : Cursor} {k : TokenKind} {ks : List TokenKind}
    (h : s.ahead = k :: ks) : s.atEnd = false := by
  rw [atEnd]
  cases hrest : s.rest with
  | nil => rw [ahead, hrest] at h; cases h
  | cons t rest => rfl

theorem closing_of_ahead (d : Delimiter) (opened : Span) {s : Cursor} {ks : List TokenKind}
    (hs : s.ahead = .mark d.closing :: ks) : s.Reaches (s.closing d opened).next ks := by
  obtain ⟨t, h, heat, ht⟩ := eat_of_ahead hs
  rw [closing, heat]
  exact ht

theorem ahead_ofTokens {tokens : List Token} {ks : List TokenKind} {firstId : NodeId}
    (h : tokens.map Token.kind = ks ++ [.eof]) (hks : .eof ∉ ks) :
    (ofTokens tokens firstId).ahead = ks := by
  have hmap : (tokens.takeWhile (·.kind ≠ .eof)).map Token.kind =
      (tokens.map Token.kind).takeWhile (· ≠ .eof) := by
    rw [List.takeWhile_map]
    rfl
  have hne : ∀ k ∈ ks, decide (k ≠ .eof) = true := fun k hk => decide_eq_true fun he => hks (he ▸ hk)
  rw [ahead, ofTokens, hmap, h, List.takeWhile_append_of_pos hne]
  simp

end Cursor

namespace Grammar

open Cursor

/-- Reading moved on to some tokens without a complaint, and what was read has a property. -/
def Gets {α : Type} {s : Cursor} (P : α → Prop) (p : Parsed α s) (ks : List TokenKind) : Prop :=
  P p.value ∧ s.Reaches p.next ks

theorem finish_gets {P : Expr → Prop} {s t : Cursor} {h : t.left ≤ s.left} {span : Span}
    {make : Node → Expr} {ks : List TokenKind} (ht : s.Reaches t ks) (hmake : ∀ n, P (make n)) :
    Gets P (finish t h span make) ks := ⟨hmake _, reaches_node ht span⟩

section Lists

variable {α : Type} {closing : Mark} {n : Nat}
  (item : (t : Cursor) → t.left ≤ n → Parsed (Option α) t) {s : Cursor} (hs : s.left ≤ n)
  {P : α → Prop} {Q : List α → Prop} {ks ls : List TokenKind}

theorem commaList_last (hstart : ¬(s.isAt closing ∨ s.atEnd))
    (hitem : Gets (fun found => ∃ x, found = some x ∧ P x) (item s hs) ks)
    (hks : ∀ k ∈ ks.head?, k ≠ .mark .comma) :
    Gets (fun xs => ∃ x, xs = [x] ∧ P x) (s.commaList closing n item hs) ks := by
  rw [commaList, if_neg hstart]
  generalize item s hs = p at hitem ⊢
  obtain ⟨found, s₁, h₁⟩ := p
  obtain ⟨⟨x, hfound, hx⟩, hreach⟩ := hitem
  dsimp only at hfound hreach
  subst hfound
  have hnone : s₁.eat .comma = none := eat_of_ne (by rw [hreach.ahead]; exact hks)
  dsimp only
  split
  · exact ⟨⟨x, rfl, hx⟩, hreach⟩
  · rename_i s₂ h₂ heat
    cases hnone.symm.trans heat

theorem commaList_more (hstart : ¬(s.isAt closing ∨ s.atEnd))
    (hitem : Gets (fun found => ∃ x, found = some x ∧ P x) (item s hs) (.mark .comma :: ls))
    (hmore : ∀ (t : Cursor) (ht : t.left ≤ n), t.ahead = ls →
      Gets Q (t.commaList closing n item ht) ks) :
    Gets (fun xs => ∃ x more, xs = x :: more ∧ P x ∧ Q more) (s.commaList closing n item hs) ks := by
  rw [commaList, if_neg hstart]
  generalize item s hs = p at hitem ⊢
  obtain ⟨found, s₁, h₁⟩ := p
  obtain ⟨⟨x, hfound, hx⟩, hreach⟩ := hitem
  dsimp only at hfound hreach
  subst hfound
  obtain ⟨s₂, h₂, hsome, hcomma⟩ := eat_of_ahead hreach.ahead
  dsimp only
  split
  · rename_i heat
    cases hsome.symm.trans heat
  · rename_i s₃ h₃ heat
    cases hsome.symm.trans heat
    obtain ⟨hrest, hlast⟩ := hmore s₂ (by omega) hcomma.ahead
    exact ⟨⟨x, _, rfl, hx, hrest⟩, (hreach.trans hcomma).trans hlast⟩

end Lists

theorem ne_of_not_isBoundary {k l : TokenKind} (hk : isBoundary k = false)
    (hl : isBoundary l = true) : k ≠ l := by
  rintro rfl
  rw [hk] at hl
  cases hl

theorem wholeExpression_of_expression {P : Expr → Prop} {s : Cursor}
    (h : Gets P (expression s) []) : Gets P (wholeExpression s) [] := by
  rw [wholeExpression]
  generalize expression s = p at h ⊢
  obtain ⟨e, t, ht⟩ := p
  obtain ⟨he, hreach⟩ := h
  dsimp only at he hreach ⊢
  have hsemicolon : t.eatSemicolon = t := by
    rw [eatSemicolon, eat_of_ne (by rw [hreach.ahead]; rintro _ ⟨⟩)]
  have hend : t.atEnd := by
    rw [atEnd, List.map_eq_nil_iff.1 hreach.ahead]
    rfl
  simp only [hsemicolon, if_pos hend]
  exact ⟨he, hreach⟩

end Grammar

end ScriptFold
