import ScriptFold.Proofs.Grammar.Derivation
import ScriptFold.Proofs.Grammar.Embedding

/-!
Reading expressions of a text inside a longer one.

Every reader of expressions gives for the longer text what it gives for the text, moved, as long as
a token of the text is left after it. This holds for all tokens, also where something is wrong with
them. There is one lemma for each reader; it follows the recursion of the reader.
-/

namespace ScriptFold.Grammar.Embedding

open Cursor

variable {g : Embedding} {s t : Cursor}

/-- The node that is complete at two cursors that see the same. -/
theorem Carries.complete {s₁ t₁ : Cursor} {hs : s₁.left ≤ s.left} {ht : t₁.left ≤ t.left}
    {span span' : Span} {make make' : Node → Expr} (h : g.Carries s₁ t₁)
    (hspan : span' = span.shift g.move.bytes)
    (hmake : ∀ n : Node, make' (n.move g.move) = (make n).move g.move) :
    g.Agrees (.move g.move) (Grammar.finish (s := s) s₁ hs span make)
      (Grammar.finish (s := t) t₁ ht span' make') := by
  intro _
  subst hspan
  refine ⟨?_, h.node span (span.shift g.move.bytes)⟩
  simp only [Grammar.finish, h.node_eq, hmake]

theorem atom?_move {k : TokenKind} {make : Node → Expr} (h : atom? k = some make) (m : Move)
    (n : Node) : make (n.move m) = (make n).move m := by
  unfold atom? at h
  split at h
  all_goals first
    | cases h; rfl
    | (obtain ⟨_, _, rfl⟩ := Option.map_eq_some_iff.1 h; rfl)

theorem plainKey?_move {k : TokenKind} {make : Node → Expr} {short : Option String}
    (h : plainKey? k = some (make, short)) (m : Move) (n : Node) :
    make (n.move m) = (make n).move m := by
  unfold plainKey? at h
  split at h
  all_goals first
    | cases h; rfl
    | (obtain ⟨_, _, he⟩ := Option.map_eq_some_iff.1 h; cases he; rfl)

@[simp] theorem apply_move (op : Connective) (m : Move) (n : Node) (l r : Expr) :
    op.apply (n.move m) (l.move m) (r.move m) = (op.apply n l r).move m := by
  cases op <;> rfl

theorem Carries.checkTarget (h : g.Carries s t) (target : Expr) :
    g.Carries (checkTarget target s) (checkTarget (target.move g.move) t) := by
  unfold Grammar.checkTarget
  rw [Expr.isAssignable_move, Expr.span_move]
  split
  · exact h
  · exact h.report (Complaint.invalidTarget.diagnostic target.span)

theorem Carries.memberName (h : g.Carries s t) :
    g.Agrees (.move g.move) (memberName s) (memberName t) := by
  refine .of_start fun hstart => ?_
  unfold Grammar.memberName
  rcases h.take hstart TokenKind.name? with ⟨hs, ht⟩ | ⟨name, span, s₁, _, t₁, _, hs, ht, h₁⟩
  · simp only [hs, ht]
    exact (h.complain hstart _).complete (h.span_eq hstart) fun _ => rfl
  · simp only [hs, ht]
    exact h₁.complete rfl fun _ => rfl

theorem Carries.noExpression (h : g.Carries s t) :
    g.Agrees (.move g.move) (noExpression s) (noExpression t) := by
  refine .of_start fun hstart => ?_
  unfold Grammar.noExpression
  dsimp only
  simp only [h.kind_eq hstart]
  have h₁ := h.complain hstart (.expectedExpression s.kind)
  split
  · exact h₁.complete (h.span_eq hstart) fun _ => rfl
  · exact fun hleft => (h₁.advance hleft).complete (h.span_eq hstart) (fun _ => rfl) hleft

theorem left_commaOperands_lt (h : s.isAt .comma) : (commaOperands s).next.left < s.left := by
  rw [commaOperands.eq_def s]
  split
  · rename_i heat
    exact absurd heat (eat_ne_none_of_isAt h)
  · rename_i s₁ h₁ heat
    have h₂ := (assignment s₁).le
    have h₃ := (commaOperands (assignment s₁).next).le
    exact Nat.lt_of_le_of_lt (Nat.le_trans h₃ h₂) h₁

mutual

theorem expression_agrees {s t : Cursor} (h : g.Carries s t) :
    g.Agrees (.move g.move) (expression s) (expression t) := by
  rw [expression.eq_def s, expression.eq_def t]
  have hfirst := assignment_agrees h
  have hsize := h.left_le
  generalize assignment s = p at hfirst ⊢
  generalize assignment t = q at hfirst ⊢
  obtain ⟨first, s₁, h₁⟩ := p
  obtain ⟨first', t₁, h₁'⟩ := q
  dsimp only [Agrees] at hfirst ⊢
  by_cases hcomma : s₁.isAt .comma
  · have hleft₁ := g.margin_le_of_isAt hcomma
    obtain ⟨rfl, hc₁⟩ := hfirst hleft₁
    rw [if_pos hcomma, if_pos (by rw [hc₁.isAt_eq hleft₁]; exact hcomma)]
    have hmore := commaOperands_agrees hc₁
    have hlt := left_commaOperands_lt hcomma
    generalize commaOperands s₁ = p at hmore hlt ⊢
    generalize commaOperands t₁ = q at hmore ⊢
    obtain ⟨more, s₂, h₂⟩ := p
    obtain ⟨more', t₂, h₂'⟩ := q
    dsimp only [Agrees] at hmore hlt ⊢
    intro hleft
    obtain ⟨rfl, hc₂⟩ := hmore hleft
    refine hc₂.complete ?_ (fun _ => rfl) hleft
    rw [Expr.span_move, hc₂.last (by omega), Span.shift_cover]
  · intro hleft
    rw [if_neg hcomma] at hleft ⊢
    obtain ⟨rfl, hc₁⟩ := hfirst hleft
    rw [if_neg (by rw [hc₁.isAt_eq hleft]; exact hcomma)]
    exact ⟨rfl, hc₁⟩
termination_by 16 * s.left + 8

theorem commaOperands_agrees {s t : Cursor} (h : g.Carries s t) :
    g.Agrees (Expr.moveAll g.move) (commaOperands s) (commaOperands t) := by
  refine .of_start fun hstart => ?_
  rw [commaOperands.eq_def s, commaOperands.eq_def t]
  rcases h.eat hstart .comma with ⟨hs, ht⟩ | ⟨s₁, hlt, t₁, hlt', hs, ht, hc₁⟩
  · simp only [hs, ht]
    exact fun _ => ⟨rfl, h⟩
  · simp only [hs, ht]
    have he := assignment_agrees hc₁
    generalize assignment s₁ = p at he ⊢
    generalize assignment t₁ = q at he ⊢
    obtain ⟨e, s₂, h₂⟩ := p
    obtain ⟨e', t₂, h₂'⟩ := q
    have hmore (hc₂ : g.Carries s₂ t₂) := commaOperands_agrees hc₂
    dsimp only [Agrees] at he ⊢
    generalize commaOperands s₂ = p at hmore ⊢
    generalize commaOperands t₂ = q at hmore ⊢
    obtain ⟨more, s₃, h₃⟩ := p
    obtain ⟨more', t₃, h₃'⟩ := q
    intro hleft
    obtain ⟨rfl, hc₂⟩ := he (Nat.le_trans hleft h₃)
    obtain ⟨rfl, hc₃⟩ := hmore hc₂ hleft
    exact ⟨rfl, hc₃⟩
termination_by 16 * s.left

theorem assignment_agrees {s t : Cursor} (h : g.Carries s t) :
    g.Agrees (.move g.move) (assignment s) (assignment t) := by
  rw [assignment.eq_def s, assignment.eq_def t]
  have htarget := conditional_agrees h
  generalize conditional s = p at htarget ⊢
  generalize conditional t = q at htarget ⊢
  obtain ⟨target, s₁, h₁⟩ := p
  obtain ⟨target', t₁, h₁'⟩ := q
  rcases htarget.take assignOp? with
    ⟨hs, ht⟩ | ⟨op, span, s₂, hlt, t₂, hlt', hs, ht, hc₂, rfl⟩
  · dsimp only [Agrees] at htarget ⊢
    simp only [hs]
    intro hleft
    simp only [ht hleft]
    exact htarget hleft
  · simp only [hs, ht]
    have hvalue := assignment_agrees (hc₂.checkTarget target)
    generalize assignment (checkTarget target s₂) = p at hvalue ⊢
    generalize assignment (checkTarget (target.move g.move) t₂) = q at hvalue ⊢
    obtain ⟨value, s₃, h₃⟩ := p
    obtain ⟨value', t₃, h₃'⟩ := q
    dsimp only [Agrees] at hvalue ⊢
    intro hleft
    obtain ⟨rfl, hc₃⟩ := hvalue hleft
    refine hc₃.complete ?_ (fun _ => rfl) hleft
    rw [Expr.span_move, Expr.span_move, Span.shift_cover]
termination_by 16 * s.left + 7
decreasing_by all_goals try rw [left_checkTarget]
              all_goals omega

theorem conditional_agrees {s t : Cursor} (h : g.Carries s t) :
    g.Agrees (.move g.move) (conditional s) (conditional t) := by
  rw [conditional.eq_def s, conditional.eq_def t]
  have htest := infixLevel_agrees 1 h
  generalize infixLevel 1 s = p at htest ⊢
  generalize infixLevel 1 t = q at htest ⊢
  obtain ⟨test, s₁, h₁⟩ := p
  obtain ⟨test', t₁, h₁'⟩ := q
  rcases htest.eat .question with ⟨hs, ht⟩ | ⟨s₂, hlt, t₂, hlt', hs, ht, hc₂, rfl⟩
  · dsimp only [Agrees] at htest ⊢
    simp only [hs]
    intro hleft
    simp only [ht hleft]
    exact htest hleft
  · simp only [hs, ht]
    have hconsequent := assignment_agrees hc₂
    generalize assignment s₂ = p at hconsequent ⊢
    generalize assignment t₂ = q at hconsequent ⊢
    obtain ⟨consequent, s₃, h₃⟩ := p
    obtain ⟨consequent', t₃, h₃'⟩ := q
    have hcolon (hc₃ : g.Carries s₃ t₃) := hc₃.expect (.mark .colon)
    dsimp only [Agrees] at hconsequent ⊢
    generalize s₃.expect (.mark .colon) = p at hcolon ⊢
    generalize t₃.expect (.mark .colon) = q at hcolon ⊢
    obtain ⟨_, s₄, h₄⟩ := p
    obtain ⟨_, t₄, h₄'⟩ := q
    have halternate (hc₄ : g.Carries s₄ t₄) := assignment_agrees hc₄
    dsimp only [Agrees] at hcolon ⊢
    generalize assignment s₄ = p at halternate ⊢
    generalize assignment t₄ = q at halternate ⊢
    obtain ⟨alternate, s₅, h₅⟩ := p
    obtain ⟨alternate', t₅, h₅'⟩ := q
    dsimp only [Agrees] at halternate ⊢
    intro hleft
    have hleft₄ : g.margin ≤ s₄.left := Nat.le_trans hleft h₅
    obtain ⟨rfl, hc₃⟩ := hconsequent (Nat.le_trans hleft₄ h₄)
    obtain ⟨-, hc₄⟩ := hcolon hc₃ hleft₄
    obtain ⟨rfl, hc₅⟩ := halternate hc₄ hleft
    refine hc₅.complete ?_ (fun _ => rfl) hleft
    rw [Expr.span_move, Expr.span_move, Span.shift_cover]
termination_by 16 * s.left + 6

theorem infixLevel_agrees (least : Nat) {s t : Cursor} (h : g.Carries s t) :
    g.Agrees (.move g.move) (infixLevel least s) (infixLevel least t) := by
  rw [infixLevel.eq_def least s, infixLevel.eq_def least t]
  have hfirst := unary_agrees h
  generalize unary s = p at hfirst ⊢
  generalize unary t = q at hfirst ⊢
  obtain ⟨left, s₁, h₁⟩ := p
  obtain ⟨left', t₁, h₁'⟩ := q
  have htail (hc₁ : g.Carries s₁ t₁) := infixTail_agrees least left hc₁
  dsimp only [Agrees] at hfirst htail ⊢
  intro hleft
  obtain ⟨rfl, hc₁⟩ := hfirst (Nat.le_trans hleft (Parsed.le _))
  exact htail hc₁ hleft
termination_by 16 * s.left + 5

theorem infixTail_agrees (least : Nat) (left : Expr) {s t : Cursor} (h : g.Carries s t) :
    g.Agrees (.move g.move) (infixTail least left s) (infixTail least (left.move g.move) t) := by
  refine .of_start fun hstart => ?_
  rw [infixTail.eq_def least left s, infixTail.eq_def least _ t]
  rcases h.take hstart (connectiveFrom? least) with
    ⟨hs, ht⟩ | ⟨⟨level, op⟩, span, s₁, hlt, t₁, hlt', hs, ht, hc₁⟩
  · simp only [hs, ht]
    exact fun _ => ⟨rfl, h⟩
  · simp only [hs, ht]
    have hright := infixLevel_agrees (rightLevel level) hc₁
    generalize infixLevel (rightLevel level) s₁ = p at hright ⊢
    generalize infixLevel (rightLevel level) t₁ = q at hright ⊢
    obtain ⟨right, s₂, h₂⟩ := p
    obtain ⟨right', t₂, h₂'⟩ := q
    dsimp only [Agrees] at hright ⊢
    intro hleft
    obtain ⟨rfl, hc₂⟩ := hright (Nat.le_trans hleft (Parsed.le _))
    rw [Expr.span_move, Expr.span_move, ← Span.shift_cover, hc₂.node_eq, apply_move]
    have hnode := hc₂.node (left.span.cover right.span)
      ((left.span.cover right.span).shift g.move.bytes)
    exact infixTail_agrees least _ hnode hleft
termination_by 16 * s.left
decreasing_by all_goals try rw [left_node]
              all_goals omega

theorem unary_agrees {s t : Cursor} (h : g.Carries s t) :
    g.Agrees (.move g.move) (unary s) (unary t) := by
  refine .of_start fun hstart => ?_
  rw [unary.eq_def s, unary.eq_def t]
  rcases h.take hstart unaryOp? with ⟨hs, ht⟩ | ⟨op, span, s₁, hlt, t₁, hlt', hs, ht, hc₁⟩
  · simp only [hs, ht]
    have he := primary_agrees h
    generalize primary s = p at he ⊢
    generalize primary t = q at he ⊢
    obtain ⟨e, s₁, h₁⟩ := p
    obtain ⟨e', t₁, h₁'⟩ := q
    have hlinks (hc₁ : g.Carries s₁ t₁) := links_agrees e false hc₁
    dsimp only [Agrees, Parsed.weaken] at he hlinks ⊢
    intro hleft
    obtain ⟨rfl, hc₁⟩ := he (Nat.le_trans hleft (Parsed.le _))
    exact hlinks hc₁ hleft
  · simp only [hs, ht]
    have hargument := unary_agrees hc₁
    generalize unary s₁ = p at hargument ⊢
    generalize unary t₁ = q at hargument ⊢
    obtain ⟨argument, s₂, h₂⟩ := p
    obtain ⟨argument', t₂, h₂'⟩ := q
    dsimp only [Agrees] at hargument ⊢
    intro hleft
    obtain ⟨rfl, hc₂⟩ := hargument hleft
    refine hc₂.complete ?_ (fun _ => rfl) hleft
    rw [Expr.span_move, Span.shift_cover]
termination_by 16 * s.left + 4

theorem links_agrees (e : Expr) (chained : Bool) {s t : Cursor} (h : g.Carries s t) :
    g.Agrees (.move g.move) (links e chained s) (links (e.move g.move) chained t) := by
  refine .of_start fun hstart => ?_
  have hsize := h.left_le
  rcases h.take hstart link? with ⟨hs, ht⟩ | ⟨link, span, s₁, hlt, t₁, hlt', hs, ht, hc₁⟩
  · rw [links.eq_def e chained s, links.eq_def _ chained t]
    simp only [hs, ht]
    exact fun _ => ⟨rfl, h⟩
  · intro hleft
    have hs₁ := linkLoop_eq e chained hs
    have ht₁ := linkLoop_eq (e.move g.move) chained ht
    have hpart := linkPart_agrees e (chained || link = .optional) link span hc₁
    have hle := (leadsTo_linkPart e (chained || link = .optional) link span s₁).left_le
    dsimp only [linkLoop] at hs₁ ht₁
    generalize linkPart e (chained || link = .optional) link span s₁ = part at hs₁ hpart hle
    generalize linkPart (e.move g.move) (chained || link = .optional) link
      (span.shift g.move.bytes) t₁ = part' at ht₁ hpart
    obtain ⟨make, s₂⟩ := part
    obtain ⟨make', t₂⟩ := part'
    obtain ⟨hsvalue, hsnext⟩ := Prod.mk.inj hs₁
    obtain ⟨htvalue, htnext⟩ := Prod.mk.inj ht₁
    rw [hsnext] at hleft
    rw [hsvalue, hsnext, htvalue, htnext]
    obtain ⟨hmake, hc₂⟩ := hpart (Nat.le_trans hleft (Parsed.le _))
    have hle : s₂.left ≤ s₁.left := hle
    dsimp only at hmake hc₂ ⊢
    rw [Expr.span_move, hc₂.last (by omega), ← Span.shift_cover, hc₂.node_eq, hmake]
    exact links_agrees _ _ (hc₂.node _ _) hleft
termination_by 16 * s.left
decreasing_by all_goals try rw [left_node]
              all_goals omega

theorem linkPart_agrees (e : Expr) (chained : Bool) (link : Link) (span : Span) {s t : Cursor}
    (h : g.Carries s t) (hleft : g.margin ≤ (linkPart e chained link span s).2.left) :
    (∀ n : Node, (linkPart (e.move g.move) chained link (span.shift g.move.bytes) t).1
      (n.move g.move) = ((linkPart e chained link span s).1 n).move g.move) ∧
    g.Carries (linkPart e chained link span s).2
      (linkPart (e.move g.move) chained link (span.shift g.move.bytes) t).2 := by
  cases link with
  | dot =>
    obtain ⟨hvalue, hc⟩ := h.memberName hleft
    refine ⟨fun n => ?_, hc⟩
    simp only [linkPart, hvalue, Expr.move]
  | index =>
    obtain ⟨hvalue, hc⟩ := computedKey_agrees span h hleft
    refine ⟨fun n => ?_, hc⟩
    simp only [linkPart, hvalue, Expr.move]
  | call =>
    obtain ⟨hvalue, hc⟩ := arguments_agrees span h hleft
    refine ⟨fun n => ?_, hc⟩
    simp only [linkPart, hvalue, Expr.move]
  | optional =>
    have hstart : g.margin ≤ s.left := by
      exact Nat.le_trans hleft (leadsTo_linkPart e chained .optional span s).left_le
    have hname : g.margin ≤ (memberName s).next.left →
        (∀ n : Node, Expr.member (n.move g.move) (e.move g.move) (memberName t).value false true =
          (Expr.member n e (memberName s).value false true).move g.move) ∧
        g.Carries (memberName s).next (memberName t).next := fun hleft => by
      obtain ⟨hvalue, hc⟩ := h.memberName hleft
      refine ⟨fun n => ?_, hc⟩
      rw [hvalue, Expr.move]
    rcases h.take hstart link? with ⟨hs, ht⟩ | ⟨link, span, s₁, hlt, t₁, hlt', hs, ht, hc₁⟩
    · simp only [linkPart, hs, ht] at hleft ⊢
      exact hname hleft
    · cases link with
      | dot | optional =>
        simp only [linkPart, hs, ht] at hleft ⊢
        exact hname hleft
      | index =>
        simp only [linkPart, hs, ht] at hleft ⊢
        obtain ⟨hvalue, hc⟩ := computedKey_agrees span hc₁ hleft
        refine ⟨fun n => ?_, hc⟩
        simp only [hvalue, Expr.move]
      | call =>
        simp only [linkPart, hs, ht] at hleft ⊢
        obtain ⟨hvalue, hc⟩ := arguments_agrees span hc₁ hleft
        refine ⟨fun n => ?_, hc⟩
        simp only [hvalue, Expr.move]
termination_by 16 * s.left + 10

theorem computedKey_agrees (opened : Span) {s t : Cursor} (h : g.Carries s t) :
    g.Agrees (.move g.move) (computedKey opened s)
      (computedKey (opened.shift g.move.bytes) t) := by
  rw [computedKey.eq_def opened s, computedKey.eq_def _ t]
  have hkey := expression_agrees h
  generalize expression s = p at hkey ⊢
  generalize expression t = q at hkey ⊢
  obtain ⟨key, s₁, h₁⟩ := p
  obtain ⟨key', t₁, h₁'⟩ := q
  dsimp only [Agrees] at hkey ⊢
  intro hleft
  obtain ⟨rfl, hc₁⟩ := hkey (Nat.le_trans hleft (Parsed.le _))
  exact ⟨rfl, (hc₁.closing .bracket opened hleft).2⟩
termination_by 16 * s.left + 9

theorem arguments_agrees (opened : Span) {s t : Cursor} (h : g.Carries s t) :
    g.Agrees (Expr.moveAll g.move) (arguments opened s)
      (arguments (opened.shift g.move.bytes) t) := by
  rw [arguments.eq_def opened s, arguments.eq_def _ t]
  have hitem (u : Cursor) (hu : u.left ≤ s.left) (v : Cursor) (hv : v.left ≤ t.left)
      (hc : g.Carries u v) :
      g.Agrees (Option.map (.move g.move)) ((element u).map some) ((element v).map some) :=
    (element_agrees hc).map fun _ => rfl
  have hitems := Carries.commaList .rparen hitem h (Nat.le_refl s.left)
    (Nat.le_refl t.left)
  generalize s.commaList .rparen s.left (fun t _ => (element t).map some) (Nat.le_refl _) = p
    at hitems ⊢
  generalize t.commaList .rparen t.left (fun t _ => (element t).map some) (Nat.le_refl _) = q
    at hitems ⊢
  obtain ⟨items, s₁, h₁⟩ := p
  obtain ⟨items', t₁, h₁'⟩ := q
  dsimp only [Agrees] at hitems ⊢
  intro hleft
  obtain ⟨rfl, hc₁⟩ := hitems (Nat.le_trans hleft (Parsed.le _))
  exact ⟨(Expr.moveAll_eq_map _ _).symm, (hc₁.closing .paren opened hleft).2⟩
termination_by 16 * s.left + 9

theorem element_agrees {s t : Cursor} (h : g.Carries s t) :
    g.Agrees (.move g.move) (element s) (element t) := by
  refine .of_start fun hstart => ?_
  rw [element.eq_def s, element.eq_def t]
  rcases h.take hstart fun k => if k = .mark .ellipsis then some () else none with
    ⟨hs, ht⟩ | ⟨_, span, s₁, hlt, t₁, hlt', hs, ht, hc₁⟩
  · simp only [hs, ht]
    exact assignment_agrees h
  · simp only [hs, ht]
    have hargument := assignment_agrees hc₁
    generalize assignment s₁ = p at hargument ⊢
    generalize assignment t₁ = q at hargument ⊢
    obtain ⟨argument, s₂, h₂⟩ := p
    obtain ⟨argument', t₂, h₂'⟩ := q
    dsimp only [Agrees] at hargument ⊢
    intro hleft
    obtain ⟨rfl, hc₂⟩ := hargument hleft
    refine hc₂.complete ?_ (fun _ => rfl) hleft
    rw [Expr.span_move, Span.shift_cover]
termination_by 16 * s.left + 8

theorem primary_agrees {s t : Cursor} (h : g.Carries s t) :
    g.Agrees (.move g.move) (primary s) (primary t) := by
  refine .of_start fun hstart => ?_
  have hsize := h.left_le
  have hspan := h.span_eq hstart
  rw [primary.eq_def s, primary.eq_def t]
  rcases h.take hstart atom? with ⟨hs, ht⟩ | ⟨make, span, s₁, hlt, t₁, hlt', hs, ht, hc₁⟩
  rotate_left
  · simp only [hs, ht]
    obtain ⟨k, hmake, -⟩ := moves_take hs
    exact hc₁.complete rfl (atom?_move hmake g.move)
  simp only [hs, ht]
  rcases h.eat hstart .lparen with ⟨hs, ht⟩ | ⟨s₁, hlt, t₁, hlt', hs, ht, hc₁⟩
  rotate_left
  · simp only [hs, ht, hspan]
    have hinner := expression_agrees hc₁
    generalize expression s₁ = p at hinner ⊢
    generalize expression t₁ = q at hinner ⊢
    obtain ⟨inner, s₂, h₂⟩ := p
    obtain ⟨inner', t₂, h₂'⟩ := q
    dsimp only [Agrees] at hinner ⊢
    intro hleft
    obtain ⟨rfl, hc₂⟩ := hinner (Nat.le_trans hleft (Parsed.le _))
    exact ⟨rfl, (hc₂.closing .paren s.span hleft).2⟩
  rcases h.eat hstart .lbracket with ⟨hs₂, ht₂⟩ | ⟨s₁, hlt, t₁, hlt', hs₂, ht₂, hc₁⟩
  rotate_left
  · simp only [hs, ht, hs₂, ht₂, hspan]
    have hitems := elements_agrees hc₁
    generalize elements s₁ = p at hitems ⊢
    generalize elements t₁ = q at hitems ⊢
    obtain ⟨items, s₂, h₂⟩ := p
    obtain ⟨items', t₂, h₂'⟩ := q
    have h₃ := (s₂.closing .bracket s.span).le
    dsimp only [Agrees] at hitems ⊢
    intro hleft
    obtain ⟨rfl, hc₂⟩ := hitems (Nat.le_trans hleft h₃)
    obtain ⟨-, hc₃⟩ := hc₂.closing .bracket s.span hleft
    refine hc₃.complete ?_ (fun _ => rfl) hleft
    rw [hc₃.last (by omega), Span.shift_cover]
  rcases h.eat hstart .lbrace with ⟨hs₃, ht₃⟩ | ⟨s₁, hlt, t₁, hlt', hs₃, ht₃, hc₁⟩
  rotate_left
  · simp only [hs, ht, hs₂, ht₂, hs₃, ht₃, hspan]
    have hitem (u : Cursor) (hu : u.left ≤ s₁.left) (v : Cursor) (hv : v.left ≤ t₁.left)
        (hc : g.Carries u v) :
        g.Agrees (Option.map (.move g.move)) (objectMember u) (objectMember v) :=
      objectMember_agrees hc
    have hmembers := Carries.commaList .rbrace hitem hc₁ (Nat.le_refl s₁.left)
      (Nat.le_refl t₁.left)
    generalize s₁.commaList .rbrace s₁.left (fun t _ => objectMember t) (Nat.le_refl _) = p
      at hmembers ⊢
    generalize t₁.commaList .rbrace t₁.left (fun t _ => objectMember t) (Nat.le_refl _) = q
      at hmembers ⊢
    obtain ⟨members, s₂, h₂⟩ := p
    obtain ⟨members', t₂, h₂'⟩ := q
    have h₃ := (s₂.closing .brace s.span).le
    dsimp only [Agrees] at hmembers ⊢
    intro hleft
    obtain ⟨rfl, hc₂⟩ := hmembers (Nat.le_trans hleft h₃)
    obtain ⟨-, hc₃⟩ := hc₂.closing .brace s.span hleft
    refine hc₃.complete ?_ (fun _ => ?_) hleft
    · rw [hc₃.last (by omega), Span.shift_cover]
    · rw [Expr.move, Expr.moveAll_eq_map]
  simp only [hs, ht, hs₂, ht₂, hs₃, ht₃]
  exact h.noExpression
termination_by 16 * s.left + 3

theorem elements_agrees {s t : Cursor} (h : g.Carries s t) :
    g.Agrees (Expr.moveElements g.move) (elements s) (elements t) := by
  refine .of_start fun hstart => ?_
  rw [elements.eq_def s, elements.eq_def t, h.isAt_eq hstart, h.atEnd_eq hstart]
  by_cases hend : s.isAt .rbracket ∨ s.atEnd
  · rw [if_pos hend, if_pos hend]
    exact fun _ => ⟨rfl, h⟩
  rw [if_neg hend, if_neg hend]
  rcases h.eat hstart .comma with ⟨hs, ht⟩ | ⟨s₁, hlt, t₁, hlt', hs, ht, hc₁⟩
  · simp only [hs, ht]
    have he := element_agrees h
    generalize element s = p at he ⊢
    generalize element t = q at he ⊢
    obtain ⟨e, s₁, h₁⟩ := p
    obtain ⟨e', t₁, h₁'⟩ := q
    rcases he.eat .comma with ⟨hs₁, ht₁⟩ | ⟨s₂, hlt, t₂, hlt', hs₁, ht₁, hc₂, rfl⟩
    · dsimp only [Agrees] at he ⊢
      simp only [hs₁]
      intro hleft
      obtain ⟨rfl, hc₁⟩ := he hleft
      simp only [ht₁ hleft]
      exact ⟨rfl, hc₁⟩
    · simp only [hs₁, ht₁]
      have hmore := elements_agrees hc₂
      generalize elements s₂ = p at hmore ⊢
      generalize elements t₂ = q at hmore ⊢
      obtain ⟨more, s₃, h₃⟩ := p
      obtain ⟨more', t₃, h₃'⟩ := q
      dsimp only [Agrees] at hmore ⊢
      intro hleft
      obtain ⟨rfl, hc₃⟩ := hmore hleft
      exact ⟨rfl, hc₃⟩
  · simp only [hs, ht]
    have hmore := elements_agrees hc₁
    generalize elements s₁ = p at hmore ⊢
    generalize elements t₁ = q at hmore ⊢
    obtain ⟨more, s₂, h₂⟩ := p
    obtain ⟨more', t₂, h₂'⟩ := q
    dsimp only [Agrees] at hmore ⊢
    intro hleft
    obtain ⟨rfl, hc₂⟩ := hmore hleft
    exact ⟨rfl, hc₂⟩
termination_by 16 * s.left + 9

theorem objectMember_agrees {s t : Cursor} (h : g.Carries s t) :
    g.Agrees (Option.map (.move g.move)) (objectMember s) (objectMember t) := by
  refine .of_start fun hstart => ?_
  have hsize := h.left_le
  have hspan := h.span_eq hstart
  rw [objectMember.eq_def s, objectMember.eq_def t, h.kind_eq hstart]
  generalize t.span = start at hspan ⊢
  subst hspan
  rcases h.take hstart fun k => if k = .mark .ellipsis then some () else none with
    ⟨hs, ht⟩ | ⟨_, span, s₁, hlt, t₁, hlt', hs, ht, hc₁⟩
  rotate_left
  · simp only [hs, ht]
    have hargument := assignment_agrees hc₁
    generalize assignment s₁ = p at hargument ⊢
    generalize assignment t₁ = q at hargument ⊢
    obtain ⟨argument, s₂, h₂⟩ := p
    obtain ⟨argument', t₂, h₂'⟩ := q
    dsimp only [Agrees] at hargument
    intro hleft
    obtain ⟨rfl, hc₂⟩ := hargument hleft
    refine (hc₂.complete ?_ fun _ => rfl).map (fun _ => rfl) hleft
    rw [Expr.span_move, Span.shift_cover]
  simp only [hs, ht]
  rcases h.take hstart plainKey? with
    ⟨hs, ht⟩ | ⟨⟨make, short⟩, span, s₁, hlt, t₁, hlt', hs, ht, hc₁⟩
  rotate_left
  · simp only [hs, ht]
    obtain ⟨k, hmake, -⟩ := moves_take hs
    have hnode := hc₁.node span (span.shift g.move.bytes)
    rw [hc₁.node_eq, plainKey?_move hmake]
    exact propertyValue_agrees s.span _ false short hnode (by rw [left_node]; omega)
  simp only [hs, ht]
  rcases h.eat hstart .lbracket with ⟨hs, ht⟩ | ⟨s₁, hlt, t₁, hlt', hs, ht, hc₁⟩
  · simp only [hs, ht]
    exact fun _ => ⟨rfl, h.complain hstart _⟩
  · simp only [hs, ht]
    have hkey := computedKey_agrees s.span hc₁
    generalize computedKey s.span s₁ = p at hkey ⊢
    generalize computedKey (s.span.shift g.move.bytes) t₁ = q at hkey ⊢
    obtain ⟨key, s₂, h₂⟩ := p
    obtain ⟨key', t₂, h₂'⟩ := q
    have hvalue (hc₂ : g.Carries s₂ t₂) :=
      propertyValue_agrees s.span key true none hc₂ (by omega)
    dsimp only [Agrees, Parsed.weaken] at hkey hvalue ⊢
    intro hleft
    obtain ⟨rfl, hc₂⟩ := hkey (Nat.le_trans hleft (Parsed.le _))
    exact hvalue hc₂ hleft
termination_by 16 * s.left + 9
decreasing_by all_goals try rw [left_node]
              all_goals omega

theorem propertyValue_agrees (start : Span) (key : Expr) (computed : Bool) (short : Option String)
    {s t : Cursor} (h : g.Carries s t) (hsize : s.left < g.size) :
    g.Agrees (Option.map (.move g.move)) (propertyValue start key computed short s)
      (propertyValue (start.shift g.move.bytes) (key.move g.move) computed short t) := by
  refine .of_start fun hstart => ?_
  rw [propertyValue.eq_def start key computed short s, propertyValue.eq_def _ _ computed short t]
  rcases h.eat hstart .colon with ⟨hs, ht⟩ | ⟨s₁, hlt, t₁, hlt', hs, ht, hc₁⟩
  · simp only [hs, ht]
    cases short with
    | none => exact fun _ => ⟨rfl, h.complain hstart _⟩
    | some name =>
      have hnode := h.node key.span (key.span.shift g.move.bytes)
      rw [Expr.span_move, h.node_eq, h.last hsize, ← Span.shift_cover]
      exact (hnode.complete rfl fun _ => rfl).map fun _ => rfl
  · simp only [hs, ht]
    have hvalue := assignment_agrees hc₁
    generalize assignment s₁ = p at hvalue ⊢
    generalize assignment t₁ = q at hvalue ⊢
    obtain ⟨value, s₂, h₂⟩ := p
    obtain ⟨value', t₂, h₂'⟩ := q
    dsimp only [Agrees] at hvalue
    intro hleft
    obtain ⟨rfl, hc₂⟩ := hvalue hleft
    refine (hc₂.complete ?_ fun _ => rfl).map (fun _ => rfl) hleft
    rw [hc₂.last (by omega), Span.shift_cover]
termination_by 16 * s.left + 9

end

end ScriptFold.Grammar.Embedding
