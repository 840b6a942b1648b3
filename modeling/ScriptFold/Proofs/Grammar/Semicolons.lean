import ScriptFold.Proofs.Grammar.Derivation

/-!
Semicolons end statements.

What is read as an expression without a complaint has no semicolon in it. Where a text goes on,
and its last token so far is a semicolon that was read without a complaint, that semicolon ended a
statement: no reader that came before it has seen what follows. A statement that is left out was
complained about.
-/

namespace ScriptFold

namespace Token

def IsSemicolon (k : Token) : Prop := k.kind = .mark .semicolon

end Token

namespace Grammar

open Cursor

/-! ## Expressions -/

theorem not_isSemicolon_of_mark {k : Token} {m : Mark} (h : k.kind = .mark m)
    (hm : m ≠ .semicolon) : ¬k.IsSemicolon := by
  intro hk
  exact hm (TokenKind.mark.inj (h.symm.trans hk))

/-- Tokens that a class of tokens without the semicolon accepts. -/
theorem not_isSemicolon_of_some {β : Type} {test : TokenKind → Option β} {k : Token} {b : β}
    (h : test k.kind = some b) (htest : test (.mark .semicolon) = none) : ¬k.IsSemicolon := by
  intro hk
  rw [hk, htest] at h
  cases h

theorem not_isSemicolon_of_link? {k : Token} (h : (link? k.kind).isSome) : ¬k.IsSemicolon := by
  obtain ⟨l, hl⟩ := Option.isSome_iff_exists.1 h
  exact not_isSemicolon_of_some hl rfl

theorem Derives.no_semicolon {r : Reading} {passed : List Token} (h : Derives r passed) :
    ∀ k ∈ passed, ¬k.IsSemicolon := by
  have hmark {k : Token} {m : Mark} (h : k.kind = .mark m) (hm : m ≠ .semicolon) :
      ∀ l ∈ [k], ¬l.IsSemicolon := List.forall_mem_singleton.2 (not_isSemicolon_of_mark h hm)
  have hsome {β : Type} {test : TokenKind → Option β} {k : Token} {b : β}
      (h : test k.kind = some b) (htest : test (.mark .semicolon) = none) :
      ∀ l ∈ [k], ¬l.IsSemicolon := List.forall_mem_singleton.2 (not_isSemicolon_of_some h htest)
  have hlinks {ks : List Token} (h : ∀ k ∈ ks, (link? k.kind).isSome) :
      ∀ k ∈ ks, ¬k.IsSemicolon := fun k hk => not_isSemicolon_of_link? (h k hk)
  induction h with
  | atom hk _ => exact hsome hk rfl
  | group hopening _ hclosing ih | array _ hopening _ hclosing ih
  | object _ hopening _ hclosing ih =>
    simp only [List.forall_mem_append]
    exact ⟨⟨hmark hopening (by decide), ih⟩, hmark hclosing (by decide)⟩
  | unary _ hk _ ih =>
    exact List.forall_mem_append.2 ⟨hsome hk rfl, ih⟩
  | connective _ _ hk _ ihl ihr =>
    simp only [List.forall_mem_append]
    exact ⟨⟨ihl, hsome hk rfl⟩, ihr⟩
  | conditional _ _ hquestion _ hcolon _ iht ihc iha =>
    simp only [List.forall_mem_append]
    exact ⟨⟨⟨⟨iht, hmark hquestion (by decide)⟩, ihc⟩, hmark hcolon (by decide)⟩, iha⟩
  | assign _ _ _ hk _ iht ihv =>
    simp only [List.forall_mem_append]
    exact ⟨⟨iht, hsome hk rfl⟩, ihv⟩
  | sequence _ _ _ ihf ihm => exact List.forall_mem_append.2 ⟨ihf, ihm⟩
  | operandsEnd | elementsEnd | itemsEnd => exact List.forall_mem_nil _
  | operand hcomma _ _ ihe ihm =>
    simp only [List.forall_mem_append]
    exact ⟨⟨hmark hcomma (by decide), ihe⟩, ihm⟩
  | named _ _ hlink hname _ ih =>
    simp only [List.forall_mem_append]
    exact ⟨⟨ih, List.forall_mem_singleton.2 (not_isSemicolon_of_link? hlink)⟩, hsome hname rfl⟩
  | index _ _ hopening _ hclosing ihe ihi | call _ _ hopening _ hclosing ihe ihi =>
    simp only [List.forall_mem_append]
    exact ⟨⟨⟨ihe, hlinks hopening⟩, ihi⟩, hmark hclosing (by decide)⟩
  | hole hcomma _ ih => exact List.forall_mem_append.2 ⟨hmark hcomma (by decide), ih⟩
  | lastElement _ ih | plain _ ih | lastItem _ ih => exact ih
  | element _ hcomma _ ihe ihm | item _ hcomma _ ihe ihm =>
    simp only [List.forall_mem_append]
    exact ⟨⟨ihe, hmark hcomma (by decide)⟩, ihm⟩
  | spread _ hk _ ih => exact List.forall_mem_append.2 ⟨hmark hk (by decide), ih⟩
  | property _ hkey _ hcolon _ ih =>
    simp only [List.forall_mem_append]
    exact ⟨⟨hsome hkey rfl, hmark hcolon (by decide)⟩, ih⟩
  | shorthand _ hkey _ _ => exact hsome hkey rfl
  | computed _ hopening _ hclosing hcolon _ ihk ihv =>
    simp only [List.forall_mem_append]
    exact ⟨⟨⟨⟨hmark hopening (by decide), ihk⟩, hmark hclosing (by decide)⟩,
      hmark hcolon (by decide)⟩, ihv⟩

theorem Derives.ne_nil {e : Expr} {passed : List Token} (h : Derives (.expr e) passed) :
    passed ≠ [] := by
  generalize hr : Reading.expr e = r at h
  induction h generalizing e with
  | sequence _ _ _ ihf _ => simp [ihf rfl]
  | _ => first | (cases hr; done) | simp

/-! ## Ends of statements -/

/-- The cursor moved, and not over a semicolon last. -/
def Unended (s v : Cursor) : Prop :=
  ∃ passed, s.Moves passed v ∧ ∀ k ∈ passed.getLast?, ¬k.IsSemicolon

/-- Nothing was complained about on the way between two cursors, and it ends with a semicolon. -/
structure Terminated (s u : Cursor) : Prop where
  clean : s.Clean u
  ends : ∃ before k, s.Moves (before ++ [k]) u ∧ k.IsSemicolon

section Ends

variable {s t u v : Cursor} {passed : List Token}

namespace Unended

theorem of_moves (h : s.Moves passed v) (hpassed : ∀ k ∈ passed, ¬k.IsSemicolon) : Unended s v :=
  ⟨passed, h, fun k hk => hpassed k (List.mem_of_getLast? hk)⟩

theorem of_last {k : Token} (h : s.Moves (passed ++ [k]) v) (hk : ¬k.IsSemicolon) :
    Unended s v := by
  refine ⟨_, h, fun l hl => ?_⟩
  rw [List.getLast?_concat] at hl
  obtain rfl : k = l := Option.some.inj hl
  exact hk

theorem trans (h₁ : Unended s t) (h₂ : Unended t u) : Unended s u := by
  obtain ⟨passed, hmoves, hlast⟩ := h₁
  obtain ⟨more, hmore, hlast'⟩ := h₂
  refine ⟨_, hmoves.trans hmore, fun k hk => ?_⟩
  rw [List.getLast?_append] at hk
  cases hmore : more.getLast? with
  | none =>
    rw [hmore, Option.none_or] at hk
    exact hlast k hk
  | some l =>
    rw [hmore, Option.some_or] at hk
    obtain rfl : l = k := Option.some.inj hk
    exact hlast' l hmore

/-- What is passed last decides. -/
theorem prepend (h₁ : s.LeadsTo t) (h : Unended t u) (hlt : u.left < t.left) :
    Unended s u := by
  obtain ⟨passed, h₁⟩ := h₁
  obtain ⟨more, hmore, hlast⟩ := h
  obtain ⟨between, k, rfl⟩ := List.eq_nil_or_concat more |>.resolve_left
    (hmore.left_lt_iff.1 hlt)
  rw [List.concat_eq_append] at hmore hlast
  refine of_last (by rw [List.append_assoc]; exact h₁.trans hmore) (hlast k ?_)
  rw [List.getLast?_concat]
  rfl

theorem of_take {β : Type} {test : TokenKind → Option β} {b : β} {span : Span}
    {ht : t.left < s.left} (h : s.take test = some (b, span, ⟨t, ht⟩))
    (htest : test (.mark .semicolon) = none) : Unended s t := by
  obtain ⟨k, hk, hmoves, -⟩ := moves_take h
  refine of_moves hmoves (List.forall_mem_singleton.2 ?_)
  exact not_isSemicolon_of_some (k := ⟨k, span⟩) hk htest

theorem of_eat {m : Mark} {ht : t.left < s.left} (h : s.eat m = some ⟨t, ht⟩)
    (hm : m ≠ .semicolon) : Unended s t := by
  obtain ⟨span, hmoves, -⟩ := moves_eat h
  exact of_moves hmoves (List.forall_mem_singleton.2 (not_isSemicolon_of_mark rfl hm))

theorem of_eatWord {w : Keyword} {ht : t.left < s.left} (h : s.eatWord w = some ⟨t, ht⟩) :
    Unended s t := by
  obtain ⟨⟨b, span, u⟩, htake, rfl⟩ := Option.map_eq_some_iff.1 h
  exact of_take htake rfl

theorem of_binding {name : Name} {ht : t.left < s.left} (h : s.binding = some (name, ⟨t, ht⟩)) :
    Unended s t := by
  obtain ⟨⟨b, span, u⟩, htake, he⟩ := Option.map_eq_some_iff.1 h
  cases he
  exact of_take htake rfl

theorem expectBinding (s : Cursor) : Unended s s.expectBinding.next := by
  unfold Cursor.expectBinding
  split
  · rename_i hname
    exact of_binding hname
  · exact of_moves (s.moves_complain _) (List.forall_mem_nil _)

theorem closing (d : Delimiter) (opened : Span) (h : s.LeadsTo t)
    (hclean : t.Clean (t.closing d opened).next) : Unended s (t.closing d opened).next := by
  obtain ⟨passed, h⟩ := h
  obtain ⟨last, hclose, hclosing⟩ := t.spells_closing d opened
  obtain ⟨-, span, rfl⟩ := hclosing hclean
  refine of_last (h.trans hclose) (not_isSemicolon_of_mark rfl ?_)
  cases d <;> decide

theorem expression {e : Expr} (h : Reads s (.expr e) t) (hclean : s.Clean t) : Unended s t := by
  obtain ⟨passed, hmoves, hderives⟩ := h.derives hclean
  exact of_moves hmoves hderives.no_semicolon

end Unended

namespace Terminated

theorem left_lt (h : Terminated s u) : u.left < s.left := by
  obtain ⟨before, k, hmoves, -⟩ := h.ends
  exact hmoves.left_lt_iff.2 (by simp)

/-- A part of the way that does not end with a semicolon leaves a part that does. -/
theorem after (h : Terminated s u) (h₁ : Unended s v) (h₂ : v.LeadsTo u) : Terminated v u := by
  obtain ⟨before, k, hmoves, hk⟩ := h.ends
  obtain ⟨passed, h₁, hlast⟩ := h₁
  obtain ⟨more, h₂⟩ := h₂
  have hrest : passed ++ more = before ++ [k] := by
    have hboth := hmoves.rest.symm.trans (h₁.trans h₂).rest
    exact (List.append_cancel_right hboth).symm
  refine ⟨(h.clean.split h₁.diagnostics h₂.diagnostics).2, ?_⟩
  rcases List.eq_nil_or_concat more with rfl | ⟨between, l, rfl⟩
  · rw [List.append_nil] at hrest
    rw [hrest, List.getLast?_concat] at hlast
    exact absurd hk (hlast k rfl)
  · rw [List.concat_eq_append] at hrest h₂
    rw [← List.append_assoc] at hrest
    obtain ⟨-, hlast⟩ := List.append_inj' hrest rfl
    obtain rfl := List.singleton_inj.1 hlast
    exact ⟨between, l, h₂, hk⟩

end Terminated

end Ends

/-! ## Complaints -/

section Clean

variable {s : Cursor}

theorem expressionStatement_of_clean (h : s.Clean (expressionStatement s).next) :
    (expressionStatement s).value.isSome := by
  revert h
  unfold expressionStatement
  have he := expression_reads s
  generalize expression s = p at he ⊢
  obtain ⟨e, s₁, h₁⟩ := p
  dsimp only at he ⊢
  split
  · exact fun _ => rfl
  · rename_i hlt
    intro h
    obtain ⟨passed, hmoves, hderives⟩ := he.derives h
    exact absurd (hmoves.left_lt_iff.2 hderives.ne_nil) hlt

/-- A statement that is left out was complained about. -/
theorem statement_of_clean (h : s.Clean (statement s).next) : (statement s).value.isSome := by
  revert h
  rw [statement]
  split
  · rename_i s₁ h₁ hword
    have hrest := (spells_importRest s₁).holds
    have hclean : s.Clean s₁ := by
      obtain ⟨⟨b, span, u⟩, htake, rfl⟩ := Option.map_eq_some_iff.1 hword
      obtain ⟨k, -, -, hclean⟩ := moves_take htake
      exact hclean
    generalize importRest s₁ = p at hrest ⊢
    obtain ⟨found, s₂, h₂⟩ := p
    intro h
    cases found with
    | none => exact absurd (hrest (h.after hclean)) Bool.false_ne_true
    | some decl => rfl
  · exact fun _ => rfl
  · exact fun _ => rfl
  · exact fun _ => rfl
  · split
    · exact fun h => absurd h (not_clean_of_report List.prefix_rfl)
    · exact expressionStatement_of_clean

end Clean

end Grammar

end ScriptFold
