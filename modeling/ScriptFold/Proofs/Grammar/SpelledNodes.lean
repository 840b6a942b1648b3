import ScriptFold.Proofs.Grammar.SpelledLists

/-!
Reading the nodes of what was written.

There is one lemma for each kind of node, which reads the words of the node from what is known of
the words of its children.
-/

namespace ScriptFold.Grammar

open Cursor ScriptFold.Expr

/-! ## Elements and members -/

/-- The words of a node are read back as the node, and an expression may start with them. -/
structure Inverts (y : Style) (e : Expr) : Prop where
  starts : Starts (e.spelled y)
  reads : ReadsBack (e.spelled y) e

section Parts

variable {y : Style}

theorem Inverts.element {x : Expr} (h : Inverts y x) :
    ReadsElement (bracketed (x.rank < 1) (x.spelled y)) x.bare := by
  have hstarts := starts_bracketed (decide (x.rank < 1)) h.starts
  refine ⟨?_, fun s ks hs hks => ?_⟩
  · obtain ⟨k, ls, hk, hboundary, -⟩ := hstarts
    exact ⟨k, ls, hk, hboundary⟩
  have hellipsis : (s.take fun k => if k = .mark .ellipsis then some () else none) = none :=
    take_of_none fun k hk => if_neg (hstarts.head_ne_ellipsis hs k hk)
  rw [Grammar.element, hellipsis]
  exact h.reads.at_assignment s ks hs hks

theorem element_spread {a : Expr} (h : Inverts y a) (n : Node) :
    ReadsElement ((spread n a).spelled y) (spread n a).bare := by
  refine ⟨⟨_, _, rfl, rfl⟩, fun s ks hs hks => ?_⟩
  rw [spelled, List.append_assoc] at hs
  obtain ⟨span, t, ht, htake, hreach⟩ := take_of_some
    (fun k => if k = .mark .ellipsis then some () else none) hs (if_pos rfl)
  obtain ⟨ha, hlast⟩ := h.reads.at_assignment t ks hreach.ahead hks
  rw [Grammar.element, htake]
  dsimp only
  generalize assignment t = p at ha hlast ⊢
  obtain ⟨argument, u, hu⟩ := p
  refine finish_gets (hreach.trans hlast) fun n => ?_
  show spread default argument.bare = spread default a.bare
  rw [ha]

/-- After a member of an object an assignment ends, and no colon follows. -/
theorem ends_of_member {ks : List TokenKind}
    (h : ∀ k ∈ ks.head?, k = .mark .comma ∨ k = .mark .rbrace) :
    Ends 1 ks ∧ ∀ k ∈ ks.head?, k ≠ .mark .colon := by
  constructor
  · intro k hk
    rcases h k hk with rfl | rfl
    · exact endsBefore_comma
    · exact endsBefore_closing 1 (by simp)
  · intro k hk
    rcases h k hk with rfl | rfl <;> decide

theorem member_spread {a : Expr} (h : Inverts y a) (n : Node) (m : Nat) :
    ReadsItem (n := m) .rbrace (fun t _ => objectMember t) ((spread n a).spelled y)
      (spread n a).bare := by
  refine ⟨⟨_, _, rfl, rfl⟩, fun s _ ks hs hks => ?_⟩
  rw [spelled, List.append_assoc] at hs
  obtain ⟨span, t, ht, htake, hreach⟩ := take_of_some
    (fun k => if k = .mark .ellipsis then some () else none) hs (if_pos rfl)
  obtain ⟨ha, hlast⟩ := h.reads.at_assignment t ks hreach.ahead (ends_of_member hks).1
  dsimp only
  rw [objectMember, htake]
  dsimp only
  generalize assignment t = p at ha hlast ⊢
  obtain ⟨argument, u, hu⟩ := p
  have hbare : spread default argument.bare = spread default a.bare := by rw [ha]
  exact ⟨⟨_, rfl, hbare⟩, reaches_node (hreach.trans hlast) (span.cover argument.span)⟩

/-- The value of a property is read after a colon. -/
theorem propertyValue_colon {v : Expr} (h : Inverts y v) (start : Span) (key : Expr)
    (computed : Bool) (short : Option String) {s : Cursor} {ks : List TokenKind}
    (hs : s.ahead = [.mark .colon] ++ (bracketed (v.rank < 1) (v.spelled y) ++ ks))
    (hks : Ends 1 ks) :
    Gets (fun found => ∃ e, found = some e ∧ Is (property default key.bare v.bare computed false) e)
      (propertyValue start key computed short s) ks := by
  obtain ⟨t, ht, heat, hreach⟩ := eat_of_ahead hs
  obtain ⟨hv, hlast⟩ := h.reads.at_assignment t ks hreach.ahead hks
  rw [propertyValue.eq_def, heat]
  dsimp only
  generalize assignment t = p at hv hlast ⊢
  obtain ⟨value, u, hu⟩ := p
  have hbare : property default key.bare value.bare computed false =
      property default key.bare v.bare computed false := by rw [hv]
  exact ⟨⟨_, rfl, hbare⟩, reaches_node (hreach.trans hlast) (start.cover u.last)⟩

/-- A key that is not computed is one token. -/
theorem plainKey?_spelled (y : Style) {key : Expr} (h : key.isPlainKey) :
    ∃ k make short, key.spelled y = [k] ∧ plainKey? k = some (make, short) ∧
      ∀ n, Is key.bare (make n) := by
  cases key with
  | ident m x => exact ⟨_, _, _, rfl, plainKey?_ofWord x, fun n => rfl⟩
  | string m x => exact ⟨_, _, _, rfl, rfl, fun n => rfl⟩
  | number m x => exact ⟨_, _, _, rfl, rfl, fun n => rfl⟩
  | _ => cases h

theorem ne_mark_of_plainKey? {k : TokenKind} {found : (Node → Expr) × Option String}
    (h : plainKey? k = some found) :
    (∀ m, k ≠ .mark m) ∧ isBoundary k = false := by
  cases k with
  | mark m => cases h
  | eof => cases h
  | _ => exact ⟨fun m => by simp, rfl⟩

theorem objectMember_plain {k : TokenKind} {make : Node → Expr} {short : Option String}
    (hk : plainKey? k = some (make, short)) {s : Cursor} {ls : List TokenKind}
    (hs : s.ahead = [k] ++ ls) :
    ∃ n t, s.Reaches t ls ∧ ((objectMember s).value, (objectMember s).next) =
      ((propertyValue s.span (make n) false short t).value,
        (propertyValue s.span (make n) false short t).next) := by
  have hellipsis : (s.take fun k => if k = .mark .ellipsis then some () else none) = none := by
    refine take_of_none fun l hl => ?_
    rw [hs] at hl
    cases hl
    exact if_neg ((ne_mark_of_plainKey? hk).1 _)
  obtain ⟨span, t, ht, htake, hreach⟩ := take_of_some plainKey? hs hk
  refine ⟨(t.node span).1, (t.node span).2, reaches_node hreach span, ?_⟩
  rw [objectMember, hellipsis, htake]
  rfl

theorem member_plain {key v : Expr} (hkey : key.isPlainKey) (h : Inverts y v) (n : Node) (m : Nat) :
    ReadsItem (n := m) .rbrace (fun t _ => objectMember t) ((property n key v false false).spelled y)
      (property n key v false false).bare := by
  obtain ⟨k, make, short, hspelled, hk, hmake⟩ := plainKey?_spelled y hkey
  rw [spelled, hspelled]
  refine ⟨⟨k, _, rfl, (ne_mark_of_plainKey? hk).2⟩, fun s _ ks hs hks => ?_⟩
  rw [List.append_assoc, List.append_assoc] at hs
  obtain ⟨l, t, hreach, hrun⟩ := objectMember_plain hk hs
  obtain ⟨hvalue, hlast⟩ := propertyValue_colon h s.span (make l) false short hreach.ahead
    (ends_of_member hks).1
  rw [Prod.mk.injEq] at hrun
  refine ⟨?_, ?_⟩
  · rw [hrun.1]
    rw [hmake l] at hvalue
    exact hvalue
  · rw [hrun.2]
    exact hreach.trans hlast

theorem member_shorthand {x : String} (hx : (TokenKind.ofWord x).binding? = some x)
    (n k l : Node) (m : Nat) :
    ReadsItem (n := m) .rbrace (fun t _ => objectMember t)
      ((property n (ident k x) (ident l x) false true).spelled y)
      (property n (ident k x) (ident l x) false true).bare := by
  have hkey := plainKey?_ofWord x
  rw [hx] at hkey
  refine ⟨⟨_, _, rfl, (ne_mark_of_plainKey? hkey).2⟩, fun s _ ks hs hks => ?_⟩
  obtain ⟨o, t, hreach, hrun⟩ := objectMember_plain hkey hs
  have hcolon : t.eat .colon = none :=
    eat_of_ne (by rw [hreach.ahead]; exact (ends_of_member hks).2)
  rw [Prod.mk.injEq, propertyValue.eq_def, hcolon] at hrun
  refine ⟨?_, ?_⟩
  · rw [hrun.1]
    exact ⟨_, rfl, rfl⟩
  · rw [hrun.2]
    exact reaches_node (reaches_node hreach (ident o x).span) (s.span.cover t.last)

theorem computedKey_spelled {key : Expr} (h : Inverts y key) (opened : Span) {s : Cursor}
    {ks : List TokenKind} (hs : s.ahead = key.spelled y ++ ([.mark .rbracket] ++ ks)) :
    Gets (Is key.bare) (computedKey opened s) ks := by
  obtain ⟨hkey, hreach⟩ := h.reads.expression s _ hs (.cons (endsBefore_closing 0 (by simp)) ks)
  have hclose := closing_of_ahead .bracket opened hreach.ahead
  rw [computedKey]
  generalize expression s = p at hkey hreach hclose ⊢
  obtain ⟨e, t, ht⟩ := p
  exact ⟨hkey, hreach.trans hclose⟩

theorem member_computed {key v : Expr} (hkey : Inverts y key) (h : Inverts y v) (n : Node)
    (m : Nat) :
    ReadsItem (n := m) .rbrace (fun t _ => objectMember t) ((property n key v true false).spelled y)
      (property n key v true false).bare := by
  refine ⟨⟨_, _, rfl, rfl⟩, fun s _ ks hs hks => ?_⟩
  simp only [spelled, List.append_assoc] at hs
  have hellipsis : (s.take fun k => if k = .mark .ellipsis then some () else none) = none :=
    take_of_none (by rw [hs]; simp)
  have hplain : s.take plainKey? = none := by
    refine take_of_none fun k hk => ?_
    rw [hs] at hk
    cases hk
    rfl
  obtain ⟨t, ht, hopen, hreach⟩ := eat_of_ahead hs
  obtain ⟨he, hinner⟩ := computedKey_spelled hkey s.span hreach.ahead
  dsimp only
  rw [objectMember, hellipsis, hplain, hopen]
  dsimp only
  generalize computedKey s.span t = p at he hinner ⊢
  obtain ⟨e, u, hu⟩ := p
  obtain ⟨hvalue, hlast⟩ := propertyValue_colon h s.span e true none hinner.ahead
    (ends_of_member hks).1
  rw [he] at hvalue
  exact ⟨hvalue, (hreach.trans hinner).trans hlast⟩

end Parts

/-! ## Nodes -/

section Nodes

variable {y : Style}

theorem inverts_atom {e : Expr} {k : TokenKind} {make : Node → Expr} (hspelled : e.spelled y = [k])
    (hk : atom? k = some make) (hop : unaryOp? k = none) (hmake : ∀ n, Is e.bare (make n))
    (hlink : e.isOptionalLink = false) : Inverts y e := by
  have hstarts : isBoundary k = false ∧ k ≠ .mark .ellipsis := by
    cases k with
    | mark m => cases hk
    | eof => cases hk
    | _ => exact ⟨rfl, by simp⟩
  refine ⟨⟨k, [], hspelled, hstarts⟩, .of_chain ?_⟩
  rw [hspelled, hlink]
  refine .of_primary (fun s ks hs => ?_) ⟨k, [], rfl, hop⟩
  obtain ⟨span, t, ht, htake, hreach⟩ := take_of_some atom? hs hk
  rw [primary, htake]
  exact finish_gets hreach hmake

theorem inverts_array {es : List (Option Expr)} (n : Node)
    (hes : ∀ x, some x ∈ es → ReadsElement (bracketed (x.rank < 1) (x.spelled y)) x.bare) :
    Inverts y (array n es) := by
  refine ⟨⟨_, _, rfl, rfl, by decide⟩, .of_chain ?_⟩
  refine .of_primary (fun s ks hs => ?_) ⟨_, _, rfl, rfl⟩
  rw [spelled, List.append_assoc, List.append_assoc] at hs
  have hatom : s.take atom? = none := by
    refine take_of_none fun k hk => ?_
    rw [hs] at hk
    cases hk
    rfl
  have hparen : s.eat .lparen = none := eat_of_ne (by rw [hs]; simp)
  obtain ⟨t, ht, hopen, hreach⟩ := eat_of_ahead hs
  obtain ⟨hitems, hlast⟩ := elements_spelled y _ hes t ks hreach.ahead
  have hclose := closing_of_ahead .bracket s.span hlast.ahead
  rw [primary, hatom, hparen, hopen]
  dsimp only
  generalize elements t = p at hitems hlast hclose ⊢
  obtain ⟨items, u, hu⟩ := p
  refine finish_gets ((hreach.trans hlast).trans hclose) fun m => ?_
  show array default (bareElements items) = array default (bareElements es)
  rw [hitems]

theorem inverts_object {ms : List Expr} (n : Node)
    (hms : ∀ m ∈ ms, ∀ k, ReadsItem (n := k) .rbrace (fun t _ => objectMember t)
      (bracketed (m.rank < 1) (m.spelled y)) m.bare) :
    Inverts y (object n ms) := by
  refine ⟨⟨_, _, rfl, rfl, by decide⟩, .of_chain ?_⟩
  refine .of_primary (fun s ks hs => ?_) ⟨_, _, rfl, rfl⟩
  rw [spelled, List.append_assoc, List.append_assoc] at hs
  have hatom : s.take atom? = none := by
    refine take_of_none fun k hk => ?_
    rw [hs] at hk
    cases hk
    rfl
  have hparen : s.eat .lparen = none := eat_of_ne (by rw [hs]; simp)
  have hbracket : s.eat .lbracket = none := eat_of_ne (by rw [hs]; simp)
  obtain ⟨t, ht, hopen, hreach⟩ := eat_of_ahead hs
  obtain ⟨hmembers, hlast⟩ := commaList_spelled y _ rfl (by decide)
    (fun m hm => hms m hm t.left) t (Nat.le_refl t.left) ks hreach.ahead
  have hclose := closing_of_ahead .brace s.span hlast.ahead
  rw [primary, hatom, hparen, hbracket, hopen]
  dsimp only
  generalize t.commaList .rbrace t.left (fun t _ => objectMember t) (Nat.le_refl _) = p
    at hmembers hlast hclose ⊢
  obtain ⟨members, u, hu⟩ := p
  refine finish_gets ((hreach.trans hlast).trans hclose) fun m => ?_
  show object default (bareAll members) = object default (bareAll ms)
  rw [hmembers]

theorem inverts_unary {a : Expr} (h : Inverts y a) (n : Node) (op : UnaryOp) :
    Inverts y (Expr.unary n op a) := by
  refine ⟨⟨op.token, _, rfl, by cases op <;> rfl, by cases op <;> decide⟩, .of_unary rfl ?_⟩
  intro s ks hs hks
  rw [spelled, List.append_assoc] at hs
  obtain ⟨span, t, ht, htake, hreach⟩ := take_of_some unaryOp? hs (unaryOp?_token op)
  obtain ⟨ha, hlast⟩ := h.reads.at_unary t ks hreach.ahead hks
  rw [Grammar.unary, htake]
  dsimp only
  generalize Grammar.unary t = p at ha hlast ⊢
  obtain ⟨argument, u, hu⟩ := p
  refine finish_gets (hreach.trans hlast) fun m => ?_
  show Expr.unary default op argument.bare = Expr.unary default op a.bare
  rw [ha]

theorem rank_apply (op : Connective) (n : Node) (l r : Expr) :
    (op.apply n l r).rank = op.level + 1 := by
  cases op <;> rfl

theorem spelled_apply (op : Connective) (n : Node) (l r : Expr) :
    (op.apply n l r).spelled y = bracketed (l.rank < leftSlot op.level) (l.spelled y) ++
      [.mark op.mark] ++ bracketed (r.rank < rightSlot op.level) (r.spelled y) := by
  cases op <;> rfl

theorem level_bounds (op : Connective) : 1 ≤ op.level ∧ op.level ≤ powerLevel := by
  cases op with
  | binary op => cases op <;> decide
  | logical op => cases op <;> decide

/-- The right operand of an operator ends where a left operand of its own rank may end. -/
theorem Follows.ends {level : Nat} {ks : List TokenKind} (h : Follows (level + 1) ks)
    (hlevel : 1 ≤ level) (hbound : level ≤ powerLevel) : Ends (rightSlot level) ks := by
  have hslot : level + 1 ≤ rightSlot level := by
    unfold rightSlot
    split <;> omega
  refine fun k hk => ⟨h.1 k hk, fun other op hop => ?_, by omega, by omega⟩
  have hleft := h.2 k hk other op hop
  unfold leftSlot at hleft
  unfold rightSlot
  unfold powerLevel at *
  split at hleft <;> split <;> omega

theorem inverts_connective {l r : Expr} (hl : Inverts y l) (hr : Inverts y r) (n : Node)
    (op : Connective) : Inverts y (op.apply n l r) := by
  obtain ⟨hlevel, hbound⟩ := level_bounds op
  have hleftSlot : op.level + 1 ≤ leftSlot op.level ∧ 2 ≤ leftSlot op.level := by
    unfold leftSlot powerLevel
    split <;> omega
  have hrightSlot : rightSlot op.level = rightLevel op.level + 1 := by
    unfold rightSlot rightLevel
    split <;> rfl
  have hrightLevel : 1 ≤ rightLevel op.level := by
    unfold rightLevel
    split <;> omega
  refine ⟨?_, .of_operand ?_ ?_ ?_⟩
  · rw [spelled_apply, List.append_assoc]
    exact (starts_bracketed _ hl.starts).append _
  · rw [rank_apply]
    omega
  · rw [rank_apply]
    unfold powerLevel at hbound
    omega
  rw [rank_apply, spelled_apply, bare_apply]
  intro least s ks hleast hs hks
  rw [List.append_assoc, List.append_assoc] at hs
  have hmark := connective?_mark op
  -- The operator asks for the place of its own left operand, so that the operand ends before it.
  have hfollows : Follows (leftSlot op.level) ([TokenKind.mark op.mark] ++
      (bracketed (r.rank < rightSlot op.level) (r.spelled y) ++ ks)) := by
    refine ⟨NoLink.cons ?_ _, ?_⟩
    · cases op with
      | binary op => cases op <;> rfl
      | logical op => cases op <;> rfl
    · rintro _ ⟨⟩ level other hother
      rw [hmark] at hother
      cases hother
      exact Nat.le_refl _
  obtain ⟨left, t, hleft, hreach, hrun⟩ := hl.reads.at_operand hleftSlot.2 least s _ (by omega) hs
    hfollows
  obtain ⟨span, u, hu, htake, hreached⟩ := take_of_some (connectiveFrom? least) hreach.ahead
    (b := (op.level, op)) (by
      rw [connectiveFrom?, hmark, Option.filter_some, if_pos]
      exact decide_eq_true (show least ≤ op.level by omega))
  have hends := hks.ends hlevel hbound
  have hright : ReadsOperand (rightSlot op.level) _ _ := hr.reads.at_operand (by omega)
  rw [hrightSlot] at hright hends
  have hahead := hreached.ahead
  rw [hrightSlot] at hahead
  obtain ⟨hvalue, hlast⟩ := hright.level hahead hends
  have hstep := infixLoop_eq left htake
  dsimp only at hstep
  generalize infixLevel (rightLevel op.level) u = p at hvalue hlast hstep
  obtain ⟨right, v, hv⟩ := p
  refine ⟨_, _, ?_, reaches_node ((hreach.trans hreached).trans hlast) _, hrun.trans hstep⟩
  rw [Is, bare_apply, hleft, hvalue]

theorem conditional_spelled {t c a : Expr} (ht : Inverts y t) (hc : Inverts y c)
    (ha : Inverts y a) (n : Node) {s : Cursor} {ks : List TokenKind}
    (hs : s.ahead = (Expr.conditional n t c a).spelled y ++ ks) (hks : Ends 1 ks) :
    Gets (Is (Expr.conditional n t c a).bare) (Grammar.conditional s) ks := by
  simp only [spelled, List.append_assoc] at hs
  have htest : ReadsOperand 2 _ _ := ht.reads.at_operand (Nat.le_refl 2)
  obtain ⟨htree, hreach⟩ := htest.level hs (.cons endsBefore_question _)
  rw [Grammar.conditional]
  generalize infixLevel 1 s = p at htree hreach ⊢
  obtain ⟨test, s₁, h₁⟩ := p
  obtain ⟨s₂, h₂, hquestion, hreach₂⟩ := eat_of_ahead hreach.ahead
  obtain ⟨hthen, hreach₃⟩ := hc.reads.at_assignment s₂ _ hreach₂.ahead
    (.cons (endsBefore_closing 1 (by simp)) _)
  dsimp only at htree hreach ⊢
  rw [hquestion]
  dsimp only
  generalize assignment s₂ = p at hthen hreach₃ ⊢
  obtain ⟨consequent, s₃, h₃⟩ := p
  obtain ⟨span, s₄, h₄, hcolon, hreach₄⟩ := take_of_some
    (fun k => if k = .mark .colon then some () else none) hreach₃.ahead (if_pos rfl)
  have hexpect : s₃.expect (.mark .colon) = ⟨true, s₄, Nat.le_of_lt h₄⟩ := by
    rw [expect, hcolon]
  obtain ⟨helse, hreach₅⟩ := ha.reads.at_assignment s₄ ks hreach₄.ahead hks
  dsimp only at hthen hreach₃ ⊢
  rw [hexpect]
  dsimp only
  generalize assignment s₄ = p at helse hreach₅ ⊢
  obtain ⟨alternate, s₅, h₅⟩ := p
  have hall := (((hreach.trans hreach₂).trans hreach₃).trans hreach₄).trans hreach₅
  refine finish_gets hall fun m => ?_
  show Expr.conditional default test.bare consequent.bare alternate.bare =
    Expr.conditional default t.bare c.bare a.bare
  rw [htree, hthen, helse]

theorem inverts_conditional {t c a : Expr} (ht : Inverts y t) (hc : Inverts y c)
    (ha : Inverts y a) (n : Node) : Inverts y (Expr.conditional n t c a) := by
  refine ⟨?_, .of_assignment rfl fun s ks hs hks => ?_⟩
  · simp only [spelled, List.append_assoc]
    exact (starts_bracketed _ ht.starts).append _
  exact assignment_of_conditional (conditional_spelled ht hc ha n hs hks) fun k hk =>
    ((hks k hk).assignment (Nat.le_refl 1)).2

theorem rank_of_isAssignable {e : Expr} (h : e.isAssignable) : 14 ≤ e.rank := by
  cases e with
  | ident n x => exact Nat.le_succ 14
  | member n o p c q => exact Nat.le_refl 14
  | _ => cases h

theorem inverts_assign {t v : Expr} (hassignable : t.isAssignable) (ht : Inverts y t)
    (hv : Inverts y v) (n : Node) (op : AssignOp) : Inverts y (assign n op t v) := by
  refine ⟨?_, .of_assignment rfl ?_⟩
  · rw [spelled, List.append_assoc]
    exact ht.starts.append _
  intro s ks hs hks
  rw [spelled, List.append_assoc, List.append_assoc] at hs
  have hrank := rank_of_isAssignable hassignable
  obtain ⟨htree, hreach⟩ := (ht.reads.operand 2 (Nat.le_refl 2) (by omega)).conditional hs
    (.cons (endsBefore_assignOp op) _) (by cases op <;> simp [AssignOp.mark])
  rw [assignment]
  generalize Grammar.conditional s = p at htree hreach ⊢
  obtain ⟨target, s₁, h₁⟩ := p
  obtain ⟨span, s₂, h₂, htake, hreach₂⟩ := take_of_some assignOp? hreach.ahead (assignOp?_mark op)
  dsimp only at htree hreach htake hreach₂ ⊢
  have hchecked : s₁.Reaches (checkTarget target s₂)
      (bracketed (v.rank < 1) (v.spelled y) ++ ks) := by
    rw [checkTarget, if_pos]
    · exact hreach₂
    · rw [← isAssignable_bare, htree, isAssignable_bare]
      exact hassignable
  obtain ⟨hvalue, hreach₃⟩ := hv.reads.at_assignment _ ks hchecked.ahead hks
  rw [htake]
  dsimp only
  generalize assignment (checkTarget target s₂) = p at hvalue hreach₃ ⊢
  obtain ⟨value, s₃, h₃⟩ := p
  refine finish_gets ((hreach.trans hchecked).trans hreach₃) fun m => ?_
  show assign default op target.bare value.bare = assign default op t.bare v.bare
  rw [htree, hvalue]

theorem inverts_sequence {first : Expr} {more : List Expr} (hmore : more ≠ [])
    (hes : ∀ e ∈ first :: more, Inverts y e) (n : Node) :
    Inverts y (sequence n (first :: more)) := by
  have hfirst := hes first List.mem_cons_self
  have hseparator : separator false (!more.isEmpty) = [.mark .comma] := by
    rcases separator_cases false more with ⟨hnil, -⟩ | h
    · exact absurd hnil hmore
    · exact h
  refine ⟨?_, .of_expression rfl ?_⟩
  · rw [spelled, spelledAll, List.append_assoc]
    exact (starts_bracketed _ hfirst.starts).append _
  intro s ks hs hks
  rw [spelled, spelledAll, hseparator, List.append_assoc, List.append_assoc] at hs
  obtain ⟨htree, hreach⟩ := hfirst.reads.at_assignment s _ hs (.cons endsBefore_comma _)
  rw [expression]
  generalize assignment s = p at htree hreach ⊢
  obtain ⟨e, t, ht⟩ := p
  have hcomma : t.isAt .comma := isAt_of_ahead hreach.ahead
  obtain ⟨hrest, hlast⟩ := commaOperands_spelled y hmore
    (fun x hx => (hes x (List.mem_cons_of_mem _ hx)).reads.at_assignment) t ks hks
    (by rw [hreach.ahead, List.append_assoc])
  dsimp only at htree hreach ⊢
  rw [if_pos hcomma]
  generalize commaOperands t = p at hrest hlast ⊢
  obtain ⟨rest, u, hu⟩ := p
  refine finish_gets (hreach.trans hlast) fun m => ?_
  show sequence default (e.bare :: bareAll rest) = sequence default (first.bare :: bareAll more)
  rw [htree, hrest]

/-! ### Links -/

theorem memberName_of_ahead {x : String} {s : Cursor} {ks : List TokenKind}
    (hs : s.ahead = [.ofWord x] ++ ks) :
    Gets (Is (ident default x)) (memberName s) ks := by
  obtain ⟨span, t, ht, htake, hreach⟩ := take_of_some TokenKind.name? hs (name?_ofWord x)
  rw [memberName, htake]
  exact finish_gets hreach fun n => rfl

theorem arguments_spelled {xs : List Expr} (trailing : Bool)
    (hxs : ∀ x ∈ xs, ReadsElement (bracketed (x.rank < 1) (x.spelled y)) x.bare) (opened : Span)
    {s : Cursor} {ks : List TokenKind}
    (hs : s.ahead = spelledAll y trailing xs ++ ([.mark .rparen] ++ ks)) :
    Gets (fun es => bareAll es = bareAll xs) (arguments opened s) ks := by
  obtain ⟨hitems, hlast⟩ := commaList_spelled y trailing rfl (by decide)
    (fun x hx => (hxs x hx).item s.left) s (Nat.le_refl s.left) ks hs
  have hclose := closing_of_ahead .paren opened hlast.ahead
  rw [arguments]
  generalize s.commaList .rparen s.left (fun t _ => (element t).map some) (Nat.le_refl _) = p
    at hitems hlast hclose ⊢
  obtain ⟨items, t, ht⟩ := p
  exact ⟨hitems, hlast.trans hclose⟩

/-- After a link the chain is optional if the object was chained or the link is marked so. -/
theorem chained_or_marked (o : Expr) (optional again : Bool) :
    (o.isOptionalLink && optional || o.marked optional again) = optional := by
  unfold marked
  cases o.isOptionalLink <;> cases optional <;> simp

/-- What a link makes of its object is a tree, and after the link some tokens are left. -/
def Makes (b : Expr) (t : Cursor) (ks : List TokenKind) (part : (Node → Expr) × Cursor) : Prop :=
  (∀ n, Is b (part.1 n)) ∧ t.Reaches part.2 ks

theorem linkLoop_of_ahead {base b : Expr} {chained optional : Bool} {s : Cursor} {k : TokenKind}
    {link : Link} {ls ks : List TokenKind} (hk : link? k = some link) (hs : s.ahead = [k] ++ ls)
    (hflag : (chained || link = .optional) = optional)
    (hpart : ∀ span t, t.ahead = ls → Makes b t ks (linkPart base optional link span t)) :
    ∃ e t, Is b e ∧ s.Reaches t ks ∧
      linkLoop (base, chained, s) = linkLoop (e, optional, t) := by
  obtain ⟨span, t, ht, htake, hreach⟩ := take_of_some link? hs hk
  have hrun := linkLoop_eq base chained htake
  rw [hflag] at hrun
  obtain ⟨hmake, hlast⟩ := hpart span t hreach.ahead
  exact ⟨_, _, hmake _, reaches_node (hreach.trans hlast) _, hrun⟩

/-- A link with a bracket, before which a mark may stand that makes it optional. -/
theorem linkLoop_of_bracket {base b : Expr} {chained marked optional : Bool} {s : Cursor} {m : Mark}
    {link : Link} {ls ks : List TokenKind} (hlink : link = .index ∨ link = .call)
    (hm : link? (.mark m) = some link)
    (hs : s.ahead = (if marked then [.mark .questionDot] else []) ++ ([.mark m] ++ ls))
    (hflag : (chained || marked) = optional)
    (hpart : ∀ span t, t.ahead = ls → Makes b t ks (linkPart base optional link span t)) :
    ∃ e t, Is b e ∧ s.Reaches t ks ∧
      linkLoop (base, chained, s) = linkLoop (e, optional, t) := by
  cases marked with
  | false =>
    have hne : link ≠ .optional := by
      rcases hlink with rfl | rfl <;> decide
    exact linkLoop_of_ahead hm hs (by simpa [hne] using hflag) hpart
  | true =>
    have hmark : link? (.mark .questionDot) = some .optional := rfl
    refine linkLoop_of_ahead hmark hs (by simpa using hflag) fun span t ht => ?_
    obtain ⟨inner, u, hu, htake, hreach⟩ := take_of_some link? ht hm
    obtain ⟨hmake, hlast⟩ := hpart inner u hreach.ahead
    have htrue : optional = true := by simpa using hflag.symm
    subst htrue
    have heq : linkPart base true .optional span t = linkPart base true link inner u := by
      rcases hlink with rfl | rfl <;> simp only [linkPart, htake]
    rw [heq]
    exact ⟨hmake, hreach.trans hlast⟩

/-- What goes on a chain of links: words that the loop of the links reads as one more link. -/
theorem ReadsChain.link {ws ls : List TokenKind} {b b' : Expr} {chained optional : Bool}
    (h : ReadsChain chained ws b)
    (hlink : ∀ base s ks, Is b base → s.ahead = ls ++ ks → ∃ e t, Is b' e ∧ s.Reaches t ks ∧
      linkLoop (base, chained, s) = linkLoop (e, optional, t)) :
    ReadsChain optional (ws ++ ls) b' := by
  intro s ks hs
  rw [List.append_assoc] at hs
  obtain ⟨base, t, hbase, hreach, hrun⟩ := h s _ hs
  obtain ⟨e, u, he, hlast, hstep⟩ := hlink base t ks hbase hreach.ahead
  exact ⟨e, u, he, hreach.trans hlast, hrun.trans hstep⟩

section Chain

variable {ws : List TokenKind} {b : Expr} {chained marked optional : Bool}
  (h : ReadsChain chained ws b) (hflag : (chained || marked) = optional)
include h hflag

theorem ReadsChain.named (x : String) :
    ReadsChain optional (ws ++ ([.mark (if marked then .questionDot else .dot)] ++ [.ofWord x]))
      (member default b (ident default x) false optional) := by
  refine h.link fun base s ks hbase hs => ?_
  rw [List.append_assoc] at hs
  have hname : ∀ t, t.ahead = [.ofWord x] ++ ks → Makes (member default b (ident default x) false
      optional) t ks (fun n => .member n base (memberName t).value false optional,
        (memberName t).next) := by
    intro t ht
    obtain ⟨hvalue, hlast⟩ := memberName_of_ahead ht
    refine ⟨fun n => ?_, hlast⟩
    show member default base.bare (memberName t).value.bare false optional = _
    rw [hbase, hvalue]
  cases marked with
  | false =>
    have hdot : link? (.mark .dot) = some .dot := rfl
    exact linkLoop_of_ahead hdot hs hflag fun span t ht => hname t ht
  | true =>
    have hmark : link? (.mark .questionDot) = some .optional := rfl
    refine linkLoop_of_ahead hmark hs hflag fun span t ht => ?_
    have hnone : t.take link? = none := by
      refine take_of_none fun k hk => ?_
      rw [ht] at hk
      cases hk
      exact link?_ofWord x
    have htrue : optional = true := by simpa using hflag.symm
    rw [linkPart, hnone]
    subst htrue
    exact hname t ht

theorem ReadsChain.index {key : Expr} (hkey : Inverts y key) :
    ReadsChain optional (ws ++ ((if marked then [.mark .questionDot] else []) ++
      ([.mark .lbracket] ++ (key.spelled y ++ [.mark .rbracket]))))
      (member default b key.bare true optional) := by
  refine h.link fun base s ks hbase hs => ?_
  rw [List.append_assoc, List.append_assoc, List.append_assoc] at hs
  refine linkLoop_of_bracket (.inl rfl) rfl hs hflag fun span t ht => ?_
  obtain ⟨hvalue, hlast⟩ := computedKey_spelled hkey span ht
  refine ⟨fun m => ?_, hlast⟩
  show member default base.bare (computedKey span t).value.bare true optional = _
  rw [hbase, hvalue]

theorem ReadsChain.call {xs : List Expr} (trailing : Bool)
    (hxs : ∀ x ∈ xs, ReadsElement (bracketed (x.rank < 1) (x.spelled y)) x.bare) :
    ReadsChain optional (ws ++ ((if marked then [.mark .questionDot] else []) ++
      ([.mark .lparen] ++ (spelledAll y trailing xs ++ [.mark .rparen]))))
      (call default b (bareAll xs) optional) := by
  refine h.link fun base s ks hbase hs => ?_
  rw [List.append_assoc, List.append_assoc, List.append_assoc] at hs
  refine linkLoop_of_bracket (.inr rfl) rfl hs hflag fun span t ht => ?_
  obtain ⟨hvalue, hlast⟩ := arguments_spelled _ hxs span ht
  refine ⟨fun m => ?_, hlast⟩
  show Expr.call default base.bare (bareAll (arguments span t).value) optional = _
  rw [hbase, hvalue]

end Chain

theorem inverts_link {o e : Expr} (ho : Inverts y o) {optional again : Bool}
    {ws : List TokenKind} (hspelled : e.spelled y =
      bracketed (o.parenthesized optional) (o.spelled y) ++ ws)
    (hoptional : e.isOptionalLink = optional)
    (hlink : ∀ {ls}, ReadsChain (o.isOptionalLink && optional) ls o.bare →
      (o.isOptionalLink && optional || o.marked optional again) = optional →
      ReadsChain optional (ls ++ ws) e.bare) :
    Inverts y e := by
  have hchain := hlink (ho.reads.at_chain optional) (chained_or_marked o optional again)
  refine ⟨?_, .of_chain ?_⟩
  · rw [hspelled]
    exact (starts_bracketed _ ho.starts).append _
  · rw [hspelled, hoptional]
    exact hchain

theorem inverts_named {o : Expr} (ho : Inverts y o) (n m : Node) (x : String) (optional : Bool) :
    Inverts y (member n o (ident m x) false optional) :=
  inverts_link ho (List.append_assoc _ _ _) rfl fun h hflag => h.named hflag x

theorem inverts_index {o p : Expr} (ho : Inverts y o) (hp : Inverts y p) (n : Node)
    (optional : Bool) : Inverts y (member n o p true optional) := by
  have hspelled : (member n o p true optional).spelled y =
      bracketed (o.parenthesized optional) (o.spelled y) ++
        ((if o.marked optional (y.repeats (member n o p true optional)) then
            [.mark .questionDot] else []) ++
          ([.mark .lbracket] ++ (p.spelled y ++ [.mark .rbracket]))) := by
    simp only [spelled, List.append_assoc]
  exact inverts_link ho hspelled rfl fun h hflag => h.index hflag hp

theorem inverts_call {f : Expr} {xs : List Expr} (hf : Inverts y f)
    (hxs : ∀ x ∈ xs, ReadsElement (bracketed (x.rank < 1) (x.spelled y)) x.bare) (n : Node)
    (optional : Bool) : Inverts y (call n f xs optional) := by
  have hspelled : (call n f xs optional).spelled y =
      bracketed (f.parenthesized optional) (f.spelled y) ++
        ((if f.marked optional (y.repeats (call n f xs optional)) then
            [.mark .questionDot] else []) ++
          ([.mark .lparen] ++
            (spelledAll y (y.trailing (call n f xs optional)) xs ++ [.mark .rparen]))) := by
    simp only [spelled, List.append_assoc]
  exact inverts_link hf hspelled rfl fun h hflag => h.call hflag _ hxs

end Nodes

end ScriptFold.Grammar
