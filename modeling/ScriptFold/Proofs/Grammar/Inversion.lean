import ScriptFold.Proofs.Expr.Nodes
import ScriptFold.Proofs.Grammar.SpelledNodes

/-!
Reading inverts writing.

The words of an expression that the grammar can express are read as that expression, up to
identities and spans. The induction is on the nodes of the tree: spreads and properties, which are
no expressions, are read with the node that holds them, from what is known of the nodes below them.
-/

namespace ScriptFold

namespace Expr

theorem mem_children_of_mem_values {d e : Expr} (h : d ∈ e.values) : d ∈ e.children := by
  unfold values at h
  split at h
  · exact List.mem_cons_of_mem _ h
  · exact List.mem_cons.2 (.inl (List.mem_singleton.1 h))
  · exact h

theorem grammatical_of_mem_values {d e : Expr} (h : e.Everywhere Sayable) (hd : d ∈ e.values)
    (hoperand : d.isOperand) : d.Grammatical :=
  ⟨hoperand, h.self.2 d hd, h.child (mem_children_of_mem_values hd)⟩

theorem sayable_of_leaf {e : Expr} (h : e.Proper) (hchildren : e.children = []) : e.Sayable := by
  refine ⟨h, fun d hd => ?_⟩
  have hmem := mem_children_of_mem_values hd
  rw [hchildren] at hmem
  cases hmem

theorem everywhere_of_leaf {P : Expr → Prop} {e : Expr} (h : P e) (hchildren : e.children = []) :
    e.Everywhere P := by
  intro d hd
  rw [hd.eq_of_leaf hchildren]
  exact h

theorem exists_ident_of_name? {e : Expr} {x : String} (h : e.name? = some x) :
    ∃ n, e = ident n x := by
  cases e <;> cases h
  exact ⟨_, rfl⟩

/-! ## No end among the words -/

@[simp] theorem eof_mem_bracketed {needed : Bool} {ws : List TokenKind} :
    .eof ∈ bracketed needed ws ↔ .eof ∈ ws := by
  cases needed <;> simp [bracketed]

@[simp] theorem eof_notMem_separator (trailing more : Bool) : .eof ∉ separator trailing more := by
  unfold separator
  split <;> simp

theorem token_ne_eof (op : UnaryOp) : op.token ≠ .eof := by
  cases op <;> simp [UnaryOp.token]

mutual

theorem eof_notMem_spelled (y : Style) : ∀ e : Expr, .eof ∉ e.spelled y
  | null _ | bool _ _ | number _ _ | string _ _ | invalid _ => by simp [spelled]
  | ident _ x => by simp [spelled, (TokenKind.ofWord_ne_eof x).symm]
  | array _ es => by simp [spelled, eof_notMem_spelledElements y _ es]
  | object _ ms => by simp [spelled, eof_notMem_spelledAll y _ ms]
  | property _ k _ _ true => by simp [spelled, eof_notMem_spelled y k]
  | property _ k v false false => by
    simp [spelled, eof_notMem_spelled y k, eof_notMem_spelled y v]
  | property _ k v true false => by
    simp [spelled, eof_notMem_spelled y k, eof_notMem_spelled y v]
  | spread _ a => by simp [spelled, eof_notMem_spelled y a]
  | member _ o p false _ => by simp [spelled, eof_notMem_spelled y o, eof_notMem_spelled y p]
  | member _ o p true _ => by
    simp only [spelled, List.mem_append, eof_mem_bracketed, eof_notMem_spelled y o,
      eof_notMem_spelled y p]
    split <;> simp
  | call _ f xs _ => by
    simp only [spelled, List.mem_append, eof_mem_bracketed, eof_notMem_spelled y f,
      eof_notMem_spelledAll y _ xs]
    split <;> simp
  | assign _ _ t v => by simp [spelled, eof_notMem_spelled y t, eof_notMem_spelled y v]
  | binary _ _ l r | logical _ _ l r => by
    simp [spelled, eof_notMem_spelled y l, eof_notMem_spelled y r]
  | unary _ op a => by simp [spelled, (token_ne_eof op).symm, eof_notMem_spelled y a]
  | conditional _ t c a => by
    simp [spelled, eof_notMem_spelled y t, eof_notMem_spelled y c, eof_notMem_spelled y a]
  | sequence _ es => eof_notMem_spelledAll y false es

theorem eof_notMem_spelledAll (y : Style) (trailing : Bool) :
    ∀ es : List Expr, .eof ∉ spelledAll y trailing es
  | [] => by simp [spelledAll]
  | e :: rest => by
    simp [spelledAll, eof_notMem_spelled y e, eof_notMem_spelledAll y trailing rest]

theorem eof_notMem_spelledElements (y : Style) (trailing : Bool) :
    ∀ es : List (Option Expr), .eof ∉ spelledElements y trailing es
  | [] => by simp [spelledElements]
  | none :: rest => by simp [spelledElements, eof_notMem_spelledElements y trailing rest]
  | some e :: rest => by
    simp [spelledElements, eof_notMem_spelled y e, eof_notMem_spelledElements y trailing rest]

end

end Expr

namespace Grammar

open ScriptFold.Expr

section Inversion

variable {y : Style} {e : Expr}

/-- All expressions below a node are read back. -/
def InvertsBelow (y : Style) (e : Expr) : Prop :=
  ∀ d : Expr, d.Below e → d.Grammatical → Inverts y d

theorem InvertsBelow.value (ih : InvertsBelow y e) (h : e.Everywhere Sayable) {d : Expr}
    (hd : d ∈ e.values) (hoperand : d.isOperand) : Inverts y d :=
  ih d (.of_mem_children (mem_children_of_mem_values hd)) (grammatical_of_mem_values h hd hoperand)

theorem InvertsBelow.below {d : Expr} (ih : InvertsBelow y e) (hd : d ∈ e.children) :
    InvertsBelow y d :=
  fun c hc => ih c (Below.of_within (.of_mem_children hd) hc.within)

theorem InvertsBelow.element (ih : InvertsBelow y e) (h : e.Everywhere Sayable) {d : Expr}
    (hd : d ∈ e.values) (helement : d.isElement) :
    ReadsElement (bracketed (d.rank < 1) (d.spelled y)) d.bare := by
  by_cases hoperand : d.isOperand
  · exact (ih.value h hd hoperand).element
  have hchild := mem_children_of_mem_values hd
  cases d with
  | spread n a =>
    have ha := h.child hchild
    exact element_spread ((ih.below hchild).value ha List.mem_cons_self ha.self.1) n
  | _ => exact absurd helement hoperand

theorem InvertsBelow.member (ih : InvertsBelow y e) (h : e.Everywhere Sayable) {d : Expr}
    (hd : d ∈ e.children) (hmember : d.isMember) (m : Nat) :
    ReadsItem (n := m) .rbrace (fun t _ => objectMember t)
      (bracketed (d.rank < 1) (d.spelled y)) d.bare := by
  have hchild := h.child hd
  have hproper := hchild.self.1
  have hbelow := ih.below hd
  cases d with
  | spread n a => exact member_spread (hbelow.value hchild List.mem_cons_self hproper) n m
  | property n key value computed shorthand =>
    cases computed with
    | true =>
      obtain ⟨hkey, hvalue, rfl⟩ := hproper
      exact member_computed (hbelow.value hchild List.mem_cons_self hkey)
        (hbelow.value hchild (List.mem_cons_of_mem _ List.mem_cons_self) hvalue) n m
    | false =>
      cases shorthand with
      | false =>
        exact member_plain hproper.1 (hbelow.value hchild List.mem_cons_self hproper.2) n m
      | true =>
        obtain ⟨x, hkey, hvalue⟩ := hproper
        have hx := hchild.self.2 value List.mem_cons_self x hvalue
        obtain ⟨k, rfl⟩ := exists_ident_of_name? hkey
        obtain ⟨l, rfl⟩ := exists_ident_of_name? hvalue
        exact member_shorthand (y := y) hx n k l m
  | _ => cases hmember

theorem inverts (y : Style) (e : Expr) (h : e.Grammatical) : Inverts y e := by
  induction e using below_induction with
  | h e ih =>
  obtain ⟨hoperand, hname, h⟩ := h
  have ih : InvertsBelow y e := ih
  have hproper := h.self.1
  cases e with
  | null n => exact inverts_atom rfl rfl rfl (fun _ => rfl) rfl
  | bool n b => cases b <;> exact inverts_atom rfl rfl rfl (fun _ => rfl) rfl
  | number n x => exact inverts_atom rfl rfl rfl (fun _ => rfl) rfl
  | string n s => exact inverts_atom rfl rfl rfl (fun _ => rfl) rfl
  | ident n x =>
    obtain ⟨hatom, hop, -⟩ := atom?_ofWord (hname x rfl)
    exact inverts_atom rfl hatom hop (fun _ => rfl) rfl
  | array n es =>
    exact inverts_array n fun x hx =>
      ih.element h (List.mem_filterMap.2 ⟨some x, hx, rfl⟩) (hproper x hx)
  | object n ms => exact inverts_object n fun m hm => ih.member h hm (hproper m hm)
  | property n k v c s => cases hoperand
  | spread n a => cases hoperand
  | member n o p computed optional =>
    cases computed with
    | false =>
      obtain ⟨ho, hp⟩ := hproper
      obtain ⟨x, hx⟩ := Option.isSome_iff_exists.1 hp
      obtain ⟨m, rfl⟩ := exists_ident_of_name? hx
      exact inverts_named (ih.value h List.mem_cons_self ho) n m x optional
    | true =>
      obtain ⟨ho, hp⟩ := hproper
      exact inverts_index (ih.value h List.mem_cons_self ho)
        (ih.value h (List.mem_cons_of_mem _ List.mem_cons_self) hp) n optional
  | call n f xs optional =>
    obtain ⟨hf, hxs⟩ := hproper
    exact inverts_call (ih.value h List.mem_cons_self hf)
      (fun x hx => ih.element h (List.mem_cons_of_mem _ hx) (hxs x hx)) n optional
  | assign n op t v =>
    obtain ⟨ht, hv⟩ := hproper
    have htarget : t.isOperand := by
      cases t <;> first | rfl | cases ht
    exact inverts_assign ht (ih.value h List.mem_cons_self htarget)
      (ih.value h (List.mem_cons_of_mem _ List.mem_cons_self) hv) n op
  | binary n op l r =>
    exact inverts_connective (ih.value h List.mem_cons_self hproper.1)
      (ih.value h (List.mem_cons_of_mem _ List.mem_cons_self) hproper.2) n (.binary op)
  | logical n op l r =>
    exact inverts_connective (ih.value h List.mem_cons_self hproper.1)
      (ih.value h (List.mem_cons_of_mem _ List.mem_cons_self) hproper.2) n (.logical op)
  | unary n op a => exact inverts_unary (ih.value h List.mem_cons_self hproper) n op
  | conditional n t c a =>
    obtain ⟨ht, hc, ha⟩ := hproper
    exact inverts_conditional (ih.value h (by simp [values, children]) ht)
      (ih.value h (by simp [values, children]) hc) (ih.value h (by simp [values, children]) ha) n
  | sequence n es =>
    obtain ⟨hlength, hes⟩ := hproper
    obtain _ | ⟨first, more⟩ := es
    · cases hlength
    have hmore : more ≠ [] := by
      rintro rfl
      simp at hlength
    exact inverts_sequence hmore (fun x hx => ih.value h hx (hes x hx)) n
  | invalid n => cases hoperand

end Inversion

theorem ReadsExpression.gets {ws : List TokenKind} {b : Expr} (h : ReadsExpression ws b)
    (heof : .eof ∉ ws) {tokens : List Token} (htokens : tokens.map Token.kind = ws ++ [.eof])
    (firstId : NodeId) : Gets (Is b) (wholeExpression (.ofTokens tokens firstId)) [] := by
  have hahead : (Cursor.ofTokens tokens firstId).ahead = ws ++ [] := by
    rw [List.append_nil]
    exact Cursor.ahead_ofTokens htokens heof
  exact wholeExpression_of_expression (h _ [] hahead (ends_nil 0))

/-- The words of an expression before the end of the tokens are read as the expression. -/
theorem gets_spelled (y : Style) {e : Expr} (h : e.Grammatical) {tokens : List Token}
    (htokens : tokens.map Token.kind = e.spelled y ++ [.eof]) (firstId : NodeId) :
    Gets (Is e.bare) (wholeExpression (.ofTokens tokens firstId)) [] :=
  (inverts y e h).reads.expression.gets (eof_notMem_spelled y e) htokens firstId

/-- **The expression parser inverts spelling.** An expression that the grammar can express is
written with parentheses only where a place asks for a tighter expression, and around an optional
chain before a link that is not optional. Reading those words gives the expression back, up to
identities and spans, without a diagnostic. -/
theorem wholeExpression_spelled (y : Style) {e : Expr} (h : e.Grammatical) {tokens : List Token}
    (htokens : tokens.map Token.kind = e.spelled y ++ [.eof]) (firstId : NodeId) :
    (wholeExpression (.ofTokens tokens firstId)).value.bare = e.bare ∧
      (wholeExpression (.ofTokens tokens firstId)).next.diagnostics = [] := by
  obtain ⟨hvalue, hreach⟩ := gets_spelled y h htokens firstId
  exact ⟨hvalue, hreach.diagnostics⟩

/-- The tree of `(a?.b).c = (x, [, ...y])`. -/
def chainAssignment : Expr :=
  let name := ident default
  assign default .simple
    (member default (member default (name "a") (name "b") false true) (name "c") false false)
    (sequence default [name "x", array default [none, some (spread default (name "y"))]])

theorem grammatical_chainAssignment : chainAssignment.Grammatical := by
  have hname (x : String) : (ident default x).Everywhere Sayable :=
    everywhere_of_leaf (sayable_of_leaf trivial rfl) rfl
  have hfree (x : String) (hx : (TokenKind.ofWord x).binding? = some x) :
      (ident default x).HasFreeName := by
    rintro _ ⟨⟩
    exact hx
  have hspread : (spread default (ident default "y")).Everywhere Sayable :=
    everywhere_of ⟨rfl, by simpa [values, children] using hfree "y" rfl⟩
      (by simpa [children] using hname "y")
  have harray : (array default [none, some (spread default (ident default "y"))]).Everywhere
      Sayable := by
    refine everywhere_of ⟨by simp [Proper, isElement], ?_⟩ (by simpa [children] using hspread)
    simp [values, children, HasFreeName, name?]
  have hchain : (member default (ident default "a") (ident default "b") false true).Everywhere
      Sayable := by
    refine everywhere_of ⟨⟨rfl, rfl⟩, by simpa [values] using hfree "a" rfl⟩ ?_
    simpa [children] using ⟨hname "a", hname "b"⟩
  have htarget : (member default (member default (ident default "a") (ident default "b") false
      true) (ident default "c") false false).Everywhere Sayable := by
    refine everywhere_of ⟨⟨rfl, rfl⟩, by simp [values, HasFreeName, name?]⟩ ?_
    simpa [children] using ⟨hchain, hname "c"⟩
  have hvalue : (sequence default [ident default "x",
      array default [none, some (spread default (ident default "y"))]]).Everywhere Sayable := by
    refine everywhere_of ⟨by simp [Proper, isOperand], ?_⟩ ?_
    · have hrest : (array default [none, some (spread default (ident default "y"))]).HasFreeName := by
        rintro x ⟨⟩
      simpa only [values, children, List.forall_mem_cons, List.not_mem_nil, false_implies,
        implies_true, and_true] using ⟨hfree "x" rfl, hrest⟩
    · simpa [children] using ⟨hname "x", harray⟩
  refine ⟨rfl, by rintro x ⟨⟩, everywhere_of ⟨⟨rfl, rfl⟩, ?_⟩ ?_⟩
  · simp [chainAssignment, values, children, HasFreeName, name?]
  · simpa [chainAssignment, children] using ⟨htarget, hvalue⟩

/-- The optional chain and the comma operator stand in parentheses. -/
theorem wholeExpression_spelled_chainAssignment :
    let tokens := [.mark .lparen, .ident "a", .mark .questionDot, .ident "b", .mark .rparen,
      .mark .dot, .ident "c", .mark .eq, .mark .lparen, .ident "x", .mark .comma, .mark .lbracket,
      .mark .comma, .mark .ellipsis, .ident "y", .mark .rbracket, .mark .rparen, .eof].map
        fun k => Token.mk k .nowhere
    let p := wholeExpression (.ofTokens tokens 0)
    chainAssignment.Grammatical ∧
      tokens.map Token.kind = chainAssignment.spelled ⟨fun _ => false, fun _ => false⟩ ++ [.eof] ∧
      p.value.bare = chainAssignment ∧ p.next.diagnostics = [] := by
  intro tokens p
  have hspelled : tokens.map Token.kind =
      chainAssignment.spelled ⟨fun _ => false, fun _ => false⟩ ++ [.eof] := rfl
  exact ⟨grammatical_chainAssignment, hspelled,
    wholeExpression_spelled _ grammatical_chainAssignment hspelled 0⟩

end Grammar

end ScriptFold
