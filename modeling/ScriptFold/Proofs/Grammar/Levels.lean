import ScriptFold.Proofs.Expr.Spelled
import ScriptFold.Proofs.Grammar.Ahead
import ScriptFold.Proofs.Grammar.Loops

/-!
The levels of the grammar.

Words that one level of the grammar reads as a tree are read as that tree by all looser levels, as
long as no token follows that goes on the expression there. For links and for operators that group
to the left what follows may go on it: there the words are read up to their end, and the loop of
the level is entered with the tree.
-/

namespace ScriptFold.Grammar

open Cursor ScriptFold.Expr

/-! ## What may follow -/

/-- The token does not go on an expression in a place that asks for a rank. -/
structure EndsBefore (slot : Nat) (k : TokenKind) : Prop where
  link : link? k = none
  connective : ∀ level op, connective? k = some (level, op) → level + 1 < slot
  assignment : slot ≤ 1 → k ≠ .mark .question ∧ assignOp? k = none
  comma : slot = 0 → k ≠ .mark .comma

/-- An expression in a place that asks for a rank ends before these tokens. -/
def Ends (slot : Nat) (ks : List TokenKind) : Prop := ∀ k ∈ ks.head?, EndsBefore slot k

/-- No link goes on before these tokens. -/
def NoLink (ks : List TokenKind) : Prop := ∀ k ∈ ks.head?, link? k = none

/-- Before these tokens there may be the left operand of an operator, in a place that asks for a
rank. -/
def Follows (slot : Nat) (ks : List TokenKind) : Prop :=
  NoLink ks ∧ ∀ k ∈ ks.head?, ∀ level op, connective? k = some (level, op) → leftSlot level ≤ slot

section Follow

variable {slot : Nat} {k : TokenKind} {ks : List TokenKind}

theorem ends_nil (slot : Nat) : Ends slot [] := by
  rintro k ⟨⟩

theorem Ends.cons (h : EndsBefore slot k) (ks : List TokenKind) : Ends slot (k :: ks) := by
  rintro _ ⟨⟩
  exact h

theorem NoLink.cons (h : link? k = none) (ks : List TokenKind) : NoLink (k :: ks) := by
  rintro _ ⟨⟩
  exact h

theorem Ends.mono {slot' : Nat} (h : Ends slot ks) (hslot : slot ≤ slot') : Ends slot' ks := by
  intro k hk
  obtain ⟨hlink, hconnective, hassignment, hcomma⟩ := h k hk
  exact ⟨hlink, fun level op hop => Nat.lt_of_lt_of_le (hconnective level op hop) hslot,
    fun h => hassignment (by omega), fun h => hcomma (by omega)⟩

theorem Ends.noLink (h : Ends slot ks) : NoLink ks := fun k hk => (h k hk).link

theorem Ends.follows (h : Ends slot ks) : Follows slot ks := by
  refine ⟨h.noLink, fun k hk level op hop => ?_⟩
  have hlevel := (h k hk).connective level op hop
  unfold leftSlot powerLevel
  split <;> omega

theorem endsBefore_closing (slot : Nat) {m : Mark}
    (h : m ∈ [Mark.rparen, .rbracket, .rbrace, .colon]) : EndsBefore slot (.mark m) := by
  simp only [List.mem_cons, List.not_mem_nil, or_false] at h
  rcases h with rfl | rfl | rfl | rfl <;>
    exact ⟨rfl, by rintro level op ⟨⟩, fun _ => ⟨by decide, rfl⟩, fun _ => by decide⟩

theorem endsBefore_comma : EndsBefore 1 (.mark .comma) :=
  ⟨rfl, by rintro level op ⟨⟩, fun _ => ⟨by decide, rfl⟩, by omega⟩

theorem endsBefore_question : EndsBefore 2 (.mark .question) :=
  ⟨rfl, by rintro level op ⟨⟩, by omega, by omega⟩

theorem endsBefore_assignOp (op : AssignOp) : EndsBefore 2 (.mark op.mark) := by
  cases op <;> exact ⟨rfl, by rintro level op ⟨⟩, by omega, by omega⟩

end Follow

/-! ## Levels -/

abbrev Is (b e : Expr) : Prop := e.bare = b

def ReadsExpression (ws : List TokenKind) (b : Expr) : Prop :=
  ∀ (s : Cursor) (ks : List TokenKind), s.ahead = ws ++ ks → Ends 0 ks → Gets (Is b) (expression s) ks

/-- The words are read as an assignment or anything tighter. -/
def ReadsAssignment (ws : List TokenKind) (b : Expr) : Prop :=
  ∀ (s : Cursor) (ks : List TokenKind), s.ahead = ws ++ ks → Ends 1 ks → Gets (Is b) (assignment s) ks

/-- The words are read as the first operand of operators, in a place that asks for a rank. -/
def ReadsOperand (slot : Nat) (ws : List TokenKind) (b : Expr) : Prop :=
  ∀ (least : Nat) (s : Cursor) (ks : List TokenKind), least + 1 ≤ slot → s.ahead = ws ++ ks →
    Follows slot ks → ∃ e t, Is b e ∧ s.Reaches t ks ∧
      ((infixLevel least s).value, (infixLevel least s).next) = infixLoop least (e, t)

def ReadsUnary (ws : List TokenKind) (b : Expr) : Prop :=
  ∀ (s : Cursor) (ks : List TokenKind), s.ahead = ws ++ ks → NoLink ks → Gets (Is b) (unary s) ks

/-- The words are read as the start of a chain of links, which is optional so far or not. -/
def ReadsChain (chained : Bool) (ws : List TokenKind) (b : Expr) : Prop :=
  ∀ (s : Cursor) (ks : List TokenKind), s.ahead = ws ++ ks → ∃ e t, Is b e ∧ s.Reaches t ks ∧
    ((unary s).value, (unary s).next) = linkLoop (e, chained, t)

section Levels

variable {ws : List TokenKind} {b : Expr}

theorem ReadsChain.unary {chained : Bool} (h : ReadsChain chained ws b) : ReadsUnary ws b := by
  intro s ks hs hks
  obtain ⟨e, t, he, ht, hrun⟩ := h s ks hs
  have htake : t.take link? = none := take_of_none (by rw [ht.ahead]; exact hks)
  rw [linkLoop, links, htake, Prod.mk.injEq] at hrun
  exact ⟨by rw [hrun.1]; exact he, by rw [hrun.2]; exact ht⟩

theorem ReadsUnary.operand (slot : Nat) (h : ReadsUnary ws b) : ReadsOperand slot ws b := by
  intro least s ks _ hs hks
  obtain ⟨he, ht⟩ := h s ks hs hks.1
  refine ⟨(Grammar.unary s).value, (Grammar.unary s).next, he, ht, ?_⟩
  rw [infixLevel]
  rfl

theorem ReadsOperand.mono {slot slot' : Nat} (h : ReadsOperand slot ws b) (hslot : slot' ≤ slot) :
    ReadsOperand slot' ws b := by
  intro least s ks hleast hs hks
  refine h least s ks (by omega) hs ⟨hks.1, fun k hk level op hop => ?_⟩
  exact Nat.le_trans (hks.2 k hk level op hop) hslot

theorem ReadsOperand.level {least : Nat} (h : ReadsOperand (least + 1) ws b) {s : Cursor}
    {ks : List TokenKind} (hs : s.ahead = ws ++ ks) (hks : Ends (least + 1) ks) :
    Gets (Is b) (infixLevel least s) ks := by
  obtain ⟨e, t, he, ht, hrun⟩ := h least s ks (Nat.le_refl _) hs hks.follows
  have htake : t.take (connectiveFrom? least) = none := by
    refine take_of_none fun k hk => ?_
    rw [ht.ahead] at hk
    refine Option.filter_eq_none_iff.2 fun found hfound => ?_
    have hlevel := (hks k hk).connective found.1 found.2 hfound
    simp only [decide_eq_true_eq]
    omega
  rw [infixLoop, infixTail, htake, Prod.mk.injEq] at hrun
  exact ⟨by rw [hrun.1]; exact he, by rw [hrun.2]; exact ht⟩

theorem ReadsOperand.conditional (h : ReadsOperand 2 ws b) {s : Cursor} {ks : List TokenKind}
    (hs : s.ahead = ws ++ ks) (hks : Ends 2 ks) (hquestion : ∀ k ∈ ks.head?, k ≠ .mark .question) :
    Gets (Is b) (conditional s) ks := by
  have hlevel := h.level hs hks
  rw [Grammar.conditional]
  generalize infixLevel 1 s = p at hlevel ⊢
  obtain ⟨e, t, ht⟩ := p
  obtain ⟨he, hreach⟩ := hlevel
  have hnone : t.eat .question = none := eat_of_ne (by rw [hreach.ahead]; exact hquestion)
  dsimp only
  rw [hnone]
  exact ⟨he, hreach⟩

theorem assignment_of_conditional {s : Cursor} {ks : List TokenKind}
    (h : Gets (Is b) (conditional s) ks) (hks : ∀ k ∈ ks.head?, assignOp? k = none) :
    Gets (Is b) (assignment s) ks := by
  rw [Grammar.assignment]
  generalize Grammar.conditional s = p at h ⊢
  obtain ⟨e, t, ht⟩ := p
  obtain ⟨he, hreach⟩ := h
  have hnone : t.take assignOp? = none := take_of_none (by rw [hreach.ahead]; exact hks)
  dsimp only
  rw [hnone]
  exact ⟨he, hreach⟩

theorem ReadsOperand.assignment (h : ReadsOperand 2 ws b) : ReadsAssignment ws b := by
  intro s ks hs hks
  have hend := fun k hk => (hks k hk).assignment (Nat.le_refl 1)
  exact assignment_of_conditional
    (h.conditional hs (hks.mono (by omega)) fun k hk => (hend k hk).1) fun k hk => (hend k hk).2

theorem ReadsAssignment.expression (h : ReadsAssignment ws b) : ReadsExpression ws b := by
  intro s ks hs hks
  have hassignment := h s ks hs (hks.mono (by omega))
  rw [Grammar.expression]
  generalize Grammar.assignment s = p at hassignment ⊢
  obtain ⟨e, t, ht⟩ := p
  obtain ⟨he, hreach⟩ := hassignment
  have hcomma : ¬t.isAt .comma :=
    not_isAt_of_ne fun k hk => (hks k (by rwa [hreach.ahead] at hk)).comma rfl
  dsimp only
  rw [if_neg hcomma]
  exact ⟨he, hreach⟩

theorem ReadsChain.expression {chained : Bool} (h : ReadsChain chained ws b) :
    ReadsExpression ws b := (h.unary.operand 2).assignment.expression

theorem ReadsChain.of_primary (h : ∀ (s : Cursor) (ks : List TokenKind), s.ahead = ws ++ ks →
      Gets (Is b) (primary s) ks) (hws : ∃ k ls, ws = k :: ls ∧ unaryOp? k = none) :
    ReadsChain false ws b := by
  intro s ks hs
  obtain ⟨he, ht⟩ := h s ks hs
  obtain ⟨k, ls, rfl, hk⟩ := hws
  have htake : s.take unaryOp? = none := by
    refine take_of_none fun l hl => ?_
    rw [hs] at hl
    cases hl
    exact hk
  refine ⟨(primary s).value, (primary s).next, he, ht, ?_⟩
  rw [Grammar.unary, htake]
  rfl

theorem ReadsExpression.group (h : ReadsExpression ws b) :
    ReadsChain false ([.mark .lparen] ++ ws ++ [.mark .rparen]) b := by
  refine .of_primary (fun s ks hs => ?_) ⟨_, _, rfl, rfl⟩
  simp only [List.cons_append, List.append_assoc] at hs
  obtain ⟨t, ht, hopen, hreach⟩ := eat_of_ahead hs
  have hatom : s.take atom? = none := by
    refine take_of_none fun k hk => ?_
    rw [hs] at hk
    cases hk
    rfl
  obtain ⟨he, hinner⟩ := h t (.mark .rparen :: ks) hreach.ahead
    (.cons (endsBefore_closing 0 (by simp)) ks)
  have hclose := closing_of_ahead .paren s.span hinner.ahead
  rw [primary, hatom, hopen]
  dsimp only
  generalize Grammar.expression t = p at he hinner hclose ⊢
  obtain ⟨e, u, hu⟩ := p
  exact ⟨he, (hreach.trans hinner).trans hclose⟩

end Levels

/-! ## Places -/

/-- The words of a tree are read as the tree, by the level of its rank and by all looser levels. -/
structure ReadsBack (ws : List TokenKind) (e : Expr) : Prop where
  expression : ReadsExpression ws e.bare
  assignment : 1 ≤ e.rank → ReadsAssignment ws e.bare
  operand : ∀ slot, 2 ≤ slot → slot ≤ e.rank → ReadsOperand slot ws e.bare
  unary : 13 ≤ e.rank → ReadsUnary ws e.bare
  chain : 14 ≤ e.rank → ReadsChain e.isOptionalLink ws e.bare

namespace ReadsBack

variable {ws : List TokenKind} {e : Expr}

theorem of_expression (hrank : e.rank = 0) (h : ReadsExpression ws e.bare) : ReadsBack ws e :=
  ⟨h, by omega, by omega, by omega, by omega⟩

theorem of_assignment (hrank : e.rank = 1) (h : ReadsAssignment ws e.bare) : ReadsBack ws e :=
  ⟨h.expression, fun _ => h, by omega, by omega, by omega⟩

theorem of_operand (hrank : 2 ≤ e.rank) (hrank' : e.rank ≤ 12)
    (h : ReadsOperand e.rank ws e.bare) : ReadsBack ws e := by
  have hassignment := (h.mono hrank).assignment
  exact ⟨hassignment.expression, fun _ => hassignment, fun slot _ hslot => h.mono hslot, by omega,
    by omega⟩

theorem of_unary (hrank : e.rank = 13) (h : ReadsUnary ws e.bare) : ReadsBack ws e := by
  have hassignment := (h.operand 2).assignment
  exact ⟨hassignment.expression, fun _ => hassignment, fun slot _ _ => h.operand slot, fun _ => h,
    by omega⟩

theorem of_chain (h : ReadsChain e.isOptionalLink ws e.bare) : ReadsBack ws e := by
  have hunary := h.unary
  have hassignment := (hunary.operand 2).assignment
  exact ⟨hassignment.expression, fun _ => hassignment, fun slot _ _ => hunary.operand slot,
    fun _ => hunary, fun _ => h⟩

theorem at_assignment (h : ReadsBack ws e) :
    ReadsAssignment (bracketed (e.rank < 1) ws) e.bare := by
  by_cases hrank : e.rank < 1
  · rw [bracketed, if_pos (by simpa using hrank)]
    exact (h.expression.group.unary.operand 2).assignment
  · rw [bracketed, if_neg (by simpa using hrank)]
    exact h.assignment (by omega)

theorem at_operand (h : ReadsBack ws e) {slot : Nat} (hslot : 2 ≤ slot) :
    ReadsOperand slot (bracketed (e.rank < slot) ws) e.bare := by
  by_cases hrank : e.rank < slot
  · rw [bracketed, if_pos (by simpa using hrank)]
    exact h.expression.group.unary.operand slot
  · rw [bracketed, if_neg (by simpa using hrank)]
    exact h.operand slot hslot (by omega)

theorem at_unary (h : ReadsBack ws e) : ReadsUnary (bracketed (e.rank < 13) ws) e.bare := by
  by_cases hrank : e.rank < 13
  · rw [bracketed, if_pos (by simpa using hrank)]
    exact h.expression.group.unary
  · rw [bracketed, if_neg (by simpa using hrank)]
    exact h.unary (by omega)

/-- The object of a link: it is chained if it is an optional link without parentheses. -/
theorem at_chain (h : ReadsBack ws e) (optional : Bool) :
    ReadsChain (e.isOptionalLink && optional) (bracketed (e.parenthesized optional) ws) e.bare := by
  by_cases hrank : e.rank < 14
  · have hlink : e.isOptionalLink = false := by
      cases e <;> first | rfl | exact absurd hrank (by simp [rank])
    rw [bracketed, if_pos (by simp [parenthesized, hrank]), hlink]
    exact h.expression.group
  have hchain := h.chain (by omega)
  cases hlink : e.isOptionalLink with
  | false =>
    rw [hlink] at hchain
    rw [bracketed, if_neg (by simp [parenthesized, hrank, hlink])]
    exact hchain
  | true =>
    rw [hlink] at hchain
    cases optional with
    | true =>
      rw [bracketed, if_neg (by simp [parenthesized, hrank])]
      exact hchain
    | false =>
      rw [bracketed, if_pos (by simp [parenthesized, hlink])]
      exact h.expression.group

end ReadsBack

end ScriptFold.Grammar
