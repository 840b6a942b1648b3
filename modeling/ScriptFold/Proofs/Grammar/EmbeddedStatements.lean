import ScriptFold.Proofs.Grammar.EmbeddedExpressions
import ScriptFold.Proofs.Grammar.Semicolons

/-!
Reading statements of a text inside a longer one.

A statement may end with the text, if it ends with a semicolon that was read without a complaint:
no reader has looked past that semicolon. So the statements of a text that ends like this are read
first, and then the statements of what follows it.
-/

namespace ScriptFold.Grammar.Embedding

open Cursor

variable {g : Embedding} {s t u v : Cursor}

/-! ## The ends of statements -/

/-- What follows the text makes no difference to what is read on this way: a token of the text is
left, or the way ends with a semicolon. -/
def Settled (g : Embedding) (s u : Cursor) : Prop := g.margin ≤ u.left ∨ Terminated s u

namespace Settled

theorem start (h : g.Settled s u) (hsu : s.LeadsTo u) : g.margin ≤ s.left := by
  rcases h with h | h
  · exact Nat.le_trans h hsu.left_le
  · exact g.margin_le_of_lt h.left_lt

/-- A way is settled if a part before it did not end with a semicolon. -/
theorem after (h : g.Settled s u) (h₁ : s.LeadsTo v) (h₂ : v.LeadsTo u)
    (hend : s.Clean v → Unended s v) : g.Settled v u := by
  refine h.imp_right fun h => ?_
  exact h.after (hend (h.clean.split h₁.diagnostics h₂.diagnostics).1) h₂

theorem of_not_clean (h : g.Settled s u) (hclean : ¬s.Clean u) : g.margin ≤ u.left :=
  h.resolve_right fun h => hclean h.clean

theorem of_report {d : Diagnostic} (h : g.Settled s (v.report d)) (hsv : s.LeadsTo v) :
    g.margin ≤ v.left := by
  refine h.of_not_clean fun hclean => ?_
  exact not_clean_of_report List.prefix_rfl
    (hclean.split hsv.diagnostics (v.moves_report d).diagnostics).2

end Settled

theorem Carries.here (h : g.Carries s t) :
    g.Agrees id (⟨(), s, left_le_self s⟩ : Parsed Unit s) ⟨(), t, left_le_self t⟩ :=
  fun _ => ⟨rfl, h⟩

theorem Carries.left_eq (h : g.Carries s t) : t.left = s.left + (g.after.getD []).length := by
  rw [left, left, h.rest, List.length_append, List.length_map]

/-! ## Imports -/

theorem importSpecifier_agrees (h : g.Carries s t) :
    g.Agrees (Option.map (.move g.move)) (importSpecifier s) (importSpecifier t) := by
  refine .of_start fun hstart => ?_
  have hsize := h.left_le
  unfold importSpecifier
  rcases h.take hstart importedName? with
    ⟨hs, ht⟩ | ⟨⟨name, bindable⟩, span, s₁, hlt, t₁, hlt', hs, ht, hc₁⟩
  · simp only [hs, ht]
    exact fun _ => ⟨rfl, h.complain hstart _⟩
  simp only [hs, ht]
  have hspan : (span.shift g.move.bytes).cover t₁.last =
      (span.cover s₁.last).shift g.move.bytes := by
    rw [hc₁.last (by omega), Span.shift_cover]
  rcases hc₁.here.eatWord .asWord with ⟨hs₁, ht₁⟩ | ⟨s₂, hlt₂, t₂, hlt₂', hs₁, ht₁, hc₂, -⟩
  · simp only [hs₁]
    cases bindable with
    | true =>
      intro hleft
      simp only [ht₁ hleft, if_true, hspan]
      exact ⟨rfl, hc₁⟩
    | false =>
      intro hleft
      simp only [ht₁ hleft, Bool.false_eq_true, if_false]
      exact ⟨rfl, hc₁.complain hleft _⟩
  · simp only [hs₁, ht₁]
    have hfound := hc₂.expectBinding
    generalize s₂.expectBinding = p at hfound ⊢
    generalize t₂.expectBinding = q at hfound ⊢
    obtain ⟨found, s₃, h₃⟩ := p
    obtain ⟨found', t₃, h₃'⟩ := q
    dsimp only [Agrees] at hfound ⊢
    intro hleft
    obtain ⟨rfl, hc₃⟩ := hfound hleft
    rw [hc₃.last (by omega), ← Span.shift_cover]
    refine ⟨?_, hc₃⟩
    cases found <;> rfl

/-- The second result is the first one, moved, if what follows the text makes no difference to the
first one. -/
def Coincides {α : Type} (g : Embedding) (move : α → α) (p : Parsed α s) (q : Parsed α t) : Prop :=
  g.Settled s p.next → q.value = move p.value ∧ g.Carries p.next q.next

theorem importSource_coincides (specifiers : List ImportSpecifier) (h : g.Carries s t) :
    g.Coincides (Option.map (.move g.move)) (importSource specifiers s)
      (importSource (specifiers.map (.move g.move)) t) := by
  unfold importSource
  have hfrom := h.expect (.keyword .fromWord)
  have hword := s.spells_expect (.keyword .fromWord)
  generalize s.expect (.keyword .fromWord) = p at hfrom hword ⊢
  generalize t.expect (.keyword .fromWord) = q at hfrom ⊢
  obtain ⟨found, s₁, h₁⟩ := p
  obtain ⟨found', t₁, h₁'⟩ := q
  cases found with
  | false =>
    obtain ⟨passed, -, hfound⟩ := hword
    intro hsettled
    obtain ⟨rfl, hc₁⟩ := hfrom (hsettled.of_not_clean fun h => Bool.false_ne_true (hfound h).1)
    exact ⟨rfl, hc₁⟩
  | true =>
    rcases hfrom.take stringValue? with
      ⟨hs₁, ht₁⟩ | ⟨source, span, s₂, hlt₂, t₂, hlt₂', hs₁, ht₁, hc₂, rfl⟩
    · simp only [hs₁, if_true]
      intro hsettled
      have hleft₁ := hsettled.of_report hword.leadsTo
      obtain ⟨rfl, hc₁⟩ := hfrom hleft₁
      simp only [id, if_true, ht₁ hleft₁]
      exact ⟨rfl, hc₁.complain hleft₁ _⟩
    · simp only [id, if_true, hs₁, ht₁]
      intro hsettled
      have hway := hword.leadsTo.trans (leadsTo_take hs₁)
      have hend := hsettled.after hway s₂.leadsTo_eatSemicolon fun _ =>
        .prepend hword.leadsTo (.of_take hs₁ rfl) hlt₂
      exact ⟨rfl, hc₂.eatSemicolon (hend.start s₂.leadsTo_eatSemicolon)⟩

theorem importAll_coincides (specifiers : List ImportSpecifier) {s₁ t₁ : Cursor}
    {hlt : s₁.left < s.left} {hlt' : t₁.left < t.left}
    (hspan : t.span = s.span.shift g.move.bytes) (hs : s.eat .star = some ⟨s₁, hlt⟩)
    (ht : t.eat .star = some ⟨t₁, hlt'⟩) (hc₁ : g.Carries s₁ t₁) :
    g.Coincides (Option.map (.move g.move)) (importGroup specifiers s)
      (importGroup (specifiers.map (.move g.move)) t) := by
  intro hsettled
  unfold importGroup at hsettled ⊢
  generalize t.span = start at hspan ⊢
  subst hspan
  simp only [hs, ht] at hsettled ⊢
  rcases hc₁.here.eatWord .asWord with ⟨hs₁, ht₁⟩ | ⟨s₂, hlt₂, t₂, hlt₂', hs₁, ht₁, hc₂, -⟩
  · simp only [hs₁] at hsettled ⊢
    have hleft₁ := hsettled.of_report (leadsTo_eat hs)
    simp only [ht₁ hleft₁]
    exact ⟨rfl, hc₁.complain hleft₁ _⟩
  simp only [hs₁, ht₁] at hsettled ⊢
  have hword := (leadsTo_eat hs).trans (leadsTo_eatWord hs₁)
  have hend := ((Unended.of_eat hs (by decide)).trans (.of_eatWord hs₁)).trans (.expectBinding s₂)
  have hname := hc₂.expectBinding
  have hfound := hword.before s₂.spells_expectBinding
  generalize s₂.expectBinding = p at hname hfound hsettled hend ⊢
  generalize t₂.expectBinding = q at hname ⊢
  obtain ⟨found, s₃, h₃⟩ := p
  obtain ⟨found', t₃, h₃'⟩ := q
  cases found with
  | none =>
    have hleft₃ : g.margin ≤ s₃.left :=
      hsettled.of_not_clean fun h => Bool.false_ne_true (hfound.holds h)
    obtain ⟨rfl, hc₃⟩ := hname hleft₃
    exact ⟨rfl, hc₃⟩
  | some name =>
    have hsource := (spells_importSource
      (specifiers ++ [⟨name, .wholeModule, s.span.cover name.span⟩]) s₃).leadsTo
    have hsettled₃ := hsettled.after hfound.leadsTo hsource fun _ => hend
    obtain ⟨rfl, hc₃⟩ := hname (hsettled₃.start hsource)
    have hsource := importSource_coincides _ hc₃ hsettled₃
    have hspan : (s.span.shift g.move.bytes).cover (name.move g.move).span =
        (s.span.cover name.span).shift g.move.bytes := (Span.shift_cover _ _ _).symm
    rw [List.map_append] at hsource
    simp only [Option.map_some, hspan]
    exact hsource

theorem importNamed_coincides (specifiers : List ImportSpecifier) {s₁ t₁ : Cursor}
    {hlt : s₁.left < s.left} {hlt' : t₁.left < t.left}
    (hspan : t.span = s.span.shift g.move.bytes) (hs : s.eat .star = none)
    (ht : t.eat .star = none) (hs' : s.eat .lbrace = some ⟨s₁, hlt⟩)
    (ht' : t.eat .lbrace = some ⟨t₁, hlt'⟩) (hc₁ : g.Carries s₁ t₁) :
    g.Coincides (Option.map (.move g.move)) (importGroup specifiers s)
      (importGroup (specifiers.map (.move g.move)) t) := by
  intro hsettled
  unfold importGroup at hsettled ⊢
  generalize t.span = start at hspan ⊢
  subst hspan
  have hlist := (leadsTo_eat hs').trans (leadsTo_commaList .rbrace
    (fun t _ => leadsTo_importSpecifier t) s₁ (Nat.le_refl s₁.left))
  have hitem (u : Cursor) (hu : u.left ≤ s₁.left) (v : Cursor) (hv : v.left ≤ t₁.left)
      (hc : g.Carries u v) :
      g.Agrees (Option.map (.move g.move)) (importSpecifier u) (importSpecifier v) :=
    importSpecifier_agrees hc
  have hnamed := Carries.commaList .rbrace hitem hc₁ (Nat.le_refl s₁.left) (Nat.le_refl t₁.left)
  simp only [hs, ht, hs', ht'] at hsettled ⊢
  generalize s₁.commaList .rbrace s₁.left (fun t _ => importSpecifier t) (Nat.le_refl _) = p
    at hnamed hlist hsettled ⊢
  generalize t₁.commaList .rbrace t₁.left (fun t _ => importSpecifier t) (Nat.le_refl _) = q
    at hnamed ⊢
  obtain ⟨named, s₂, h₂⟩ := p
  obtain ⟨named', t₂, h₂'⟩ := q
  have hclose (hc₂ : g.Carries s₂ t₂) := hc₂.closing .brace s.span
  have hclosed := s₂.spells_closing .brace s.span
  have hend := Unended.closing .brace s.span hlist
  dsimp only [Agrees] at hnamed hsettled hlist ⊢
  generalize s₂.closing .brace s.span = p at hclose hclosed hend hsettled ⊢
  generalize t₂.closing .brace (s.span.shift g.move.bytes) = q at hclose ⊢
  obtain ⟨closed, s₃, h₃⟩ := p
  obtain ⟨closed', t₃, h₃'⟩ := q
  have hclean (h : s.Clean s₃) : s₂.Clean s₃ :=
    (h.split hlist.diagnostics hclosed.leadsTo.diagnostics).2
  cases closed with
  | false =>
    obtain ⟨passed, -, hfound⟩ := hclosed
    have hleft₃ : g.margin ≤ s₃.left :=
      hsettled.of_not_clean fun h => Bool.false_ne_true (hfound (hclean h)).1
    obtain ⟨rfl, hc₂⟩ := hnamed (Nat.le_trans hleft₃ h₃)
    obtain ⟨rfl, hc₃⟩ := hclose hc₂ hleft₃
    exact ⟨rfl, hc₃⟩
  | true =>
    have hsource := (spells_importSource (specifiers ++ named) s₃).leadsTo
    have hsettled₃ := hsettled.after (hlist.trans hclosed.leadsTo) hsource fun h =>
      hend (hclean h)
    have hleft₃ : g.margin ≤ s₃.left := hsettled₃.start hsource
    obtain ⟨rfl, hc₂⟩ := hnamed (Nat.le_trans hleft₃ h₃)
    obtain ⟨rfl, hc₃⟩ := hclose hc₂ hleft₃
    have hsource := importSource_coincides (specifiers ++ named) hc₃ hsettled₃
    rw [List.map_append] at hsource
    exact hsource

theorem importGroup_coincides (specifiers : List ImportSpecifier) (h : g.Carries s t) :
    g.Coincides (Option.map (.move g.move)) (importGroup specifiers s)
      (importGroup (specifiers.map (.move g.move)) t) := by
  intro hsettled
  have hstart := hsettled.start (spells_importGroup specifiers s).leadsTo
  have hspan := h.span_eq hstart
  rcases h.eat hstart .star with ⟨hs, ht⟩ | ⟨s₁, hlt, t₁, hlt', hs, ht, hc₁⟩
  · rcases h.eat hstart .lbrace with ⟨hs', ht'⟩ | ⟨s₁, hlt, t₁, hlt', hs', ht', hc₁⟩
    · unfold importGroup
      simp only [hs, ht, hs', ht']
      exact ⟨rfl, h.complain hstart _⟩
    · exact importNamed_coincides specifiers hspan hs ht hs' ht' hc₁ hsettled
  · exact importAll_coincides specifiers hspan hs ht hc₁ hsettled

theorem importRest_coincides (h : g.Carries s t) :
    g.Coincides (Option.map (.move g.move)) (importRest s) (importRest t) := by
  intro hsettled
  have hstart := hsettled.start (spells_importRest s).leadsTo
  unfold importRest at hsettled ⊢
  rcases h.take hstart stringValue? with ⟨hs, ht⟩ | ⟨source, span, s₁, hlt, t₁, hlt', hs, ht, hc₁⟩
  rotate_left
  · simp only [hs, ht] at hsettled ⊢
    have hend := hsettled.after (leadsTo_take hs) s₁.leadsTo_eatSemicolon fun _ =>
      .of_take hs rfl
    exact ⟨rfl, hc₁.eatSemicolon (hend.start s₁.leadsTo_eatSemicolon)⟩
  simp only [hs, ht] at hsettled ⊢
  rcases h.binding hstart with ⟨hs, ht⟩ | ⟨name, s₁, hlt, t₁, hlt', hs, ht, hc₁⟩
  · simp only [hs, ht] at hsettled ⊢
    exact importGroup_coincides [] h hsettled
  simp only [hs, ht] at hsettled ⊢
  have hname := Unended.of_binding hs
  rcases hc₁.here.eat .comma with ⟨hs₁, ht₁⟩ | ⟨s₂, hlt₂, t₂, hlt₂', hs₁, ht₁, hc₂, -⟩
  · simp only [hs₁] at hsettled ⊢
    have hsource := (spells_importSource [⟨name, .defaultExport, name.span⟩] s₁).leadsTo
    have hsettled₁ := hsettled.after (leadsTo_binding hs) hsource fun _ => hname
    simp only [ht₁ (hsettled₁.start hsource)]
    exact importSource_coincides [⟨name, .defaultExport, name.span⟩] hc₁ hsettled₁
  · simp only [hs₁, ht₁] at hsettled ⊢
    have hcomma := (leadsTo_binding hs).trans (leadsTo_eat hs₁)
    have hgroup := (spells_importGroup [⟨name, .defaultExport, name.span⟩] s₂).leadsTo
    have hsettled₂ := hsettled.after hcomma hgroup fun _ =>
      hname.trans (.of_eat hs₁ (by decide))
    exact importGroup_coincides [⟨name, .defaultExport, name.span⟩] hc₂ hsettled₂

/-! ## Declarations -/

theorem initializer_agrees (h : g.Carries s t) :
    g.Agrees (Option.map (.move g.move)) (initializer s) (initializer t) := by
  refine .of_start fun hstart => ?_
  unfold initializer
  rcases h.eat hstart .eq with ⟨hs, ht⟩ | ⟨s₁, hlt, t₁, hlt', hs, ht, hc₁⟩
  · simp only [hs, ht]
    exact fun _ => ⟨rfl, h⟩
  · simp only [hs, ht]
    exact (assignment_agrees hc₁).map fun _ => rfl

theorem unended_initializer (hclean : s.Clean (initializer s).next) :
    Unended s (initializer s).next := by
  revert hclean
  unfold initializer
  split
  · rename_i s₁ h₁ heat
    obtain ⟨span, -, hclean₁⟩ := moves_eat heat
    intro hclean
    exact (Unended.of_eat heat (by decide)).trans
      (.expression (assignment_reads s₁) (hclean.after hclean₁))
  · exact fun _ => .of_moves (.refl s) (List.forall_mem_nil _)

theorem Carries.checkInitializer (h : g.Carries s t) (kind : VarKind) (name : Name)
    (init : Option Expr) : g.Carries (checkInitializer kind name init s)
      (checkInitializer kind (name.move g.move) (init.map (.move g.move)) t) := by
  unfold Grammar.checkInitializer
  rw [Option.isNone_map]
  split
  · exact h.report (Complaint.missingInitializer.diagnostic name.span)
  · exact h

theorem declarators_coincides (kind : VarKind) {s t : Cursor} (h : g.Carries s t) :
    g.Coincides (List.map (.move g.move)) (declarators kind s) (declarators kind t) := by
  intro hsettled
  have hstart := hsettled.start (declarators_reads kind s).leadsTo
  have hsize := h.left_le
  rw [declarators.eq_def kind s] at hsettled ⊢
  rw [declarators.eq_def kind t]
  rcases h.binding hstart with ⟨hs, ht⟩ | ⟨name, s₁, hlt, t₁, hlt', hs, ht, hc₁⟩
  · simp only [hs, ht] at hsettled ⊢
    have hskip := (s.complain (.expectedIdentifier s.kind)).leadsTo_toStatement
    have hleft := hsettled.of_not_clean (not_clean_of_report hskip.diagnostics)
    rw [h.kind_eq hstart]
    exact ⟨rfl, (h.complain hstart _).toStatement hleft⟩
  simp only [hs, ht] at hsettled ⊢
  have hname := Unended.of_binding hs
  have hinit := initializer_agrees hc₁
  have hvalue := unended_initializer (s := s₁)
  have hread := (initializer_reads s₁).leadsTo
  generalize initializer s₁ = p at hsettled hinit hvalue hread ⊢
  generalize initializer t₁ = q at hinit ⊢
  obtain ⟨init, s₂, h₂⟩ := p
  obtain ⟨init', t₂, h₂'⟩ := q
  dsimp only at hsettled hinit hvalue hread ⊢
  have hcheck := spells_checkInitializer kind name init s₂
  have hleft₃ := left_checkInitializer kind name init s₂
  -- The declaration so far does not end with a semicolon.
  have hunended (hclean : s.Clean (checkInitializer kind name init s₂)) :
      Unended s (checkInitializer kind name init s₂) := by
    obtain ⟨hclean₂, hclean₃⟩ := hclean.split ((leadsTo_binding hs).trans hread).diagnostics
      hcheck.leadsTo.diagnostics
    obtain ⟨-, hclean₂⟩ := hclean₂.split (leadsTo_binding hs).diagnostics hread.diagnostics
    obtain ⟨passed, hmoves, hpassed⟩ := hcheck
    obtain ⟨rfl, -⟩ := hpassed hclean₃
    exact (hname.trans (hvalue hclean₂)).trans (.of_moves hmoves (List.forall_mem_nil _))
  have hone : g.Agrees (.move g.move)
      (⟨⟨name, init, name.span.cover s₂.last⟩, checkInitializer kind name init s₂,
        Nat.le_of_eq hleft₃⟩ : Parsed Declarator s₂)
      (⟨⟨name.move g.move, init', (name.move g.move).span.cover t₂.last⟩,
        checkInitializer kind (name.move g.move) init' t₂,
        Nat.le_of_eq (left_checkInitializer _ _ _ _)⟩ : Parsed Declarator t₂) := by
    intro hleft
    obtain ⟨rfl, hc₂⟩ := hinit (hleft₃ ▸ hleft)
    have hlt₂ : s₂.left < g.size := Nat.lt_of_le_of_lt h₂ (Nat.lt_of_lt_of_le hlt hsize)
    refine ⟨?_, hc₂.checkInitializer kind name init⟩
    rw [hc₂.last hlt₂, Declarator.move, Span.shift_cover]
    rfl
  have hway := ((leadsTo_binding hs).trans hread).trans hcheck.leadsTo
  rcases hone.eat .comma with ⟨hs₃, ht₃⟩ | ⟨s₄, hlt₄, t₄, hlt₄', hs₃, ht₃, hc₄, hvalue⟩
  · simp only [hs₃] at hsettled ⊢
    have hsemicolon := (checkInitializer kind name init s₂).leadsTo_eatSemicolon
    have hleft := (hsettled.after hway hsemicolon hunended).start hsemicolon
    obtain ⟨hvalue, hc₃⟩ := hone hleft
    simp only [ht₃ hleft]
    exact ⟨congrArg ([·]) hvalue, hc₃.eatSemicolon hleft⟩
  · simp only [hs₃, ht₃] at hsettled ⊢
    have hcomma := leadsTo_eat hs₃
    have hmore := (declarators_reads kind s₄).leadsTo
    have hends := hsettled.after (hway.trans hcomma) hmore fun hclean =>
      (hunended (hclean.split hway.diagnostics hcomma.diagnostics).1).trans
        (.of_eat hs₃ (by decide))
    obtain ⟨hmore, hc₅⟩ := declarators_coincides kind hc₄ hends
    rw [hvalue, hmore]
    exact ⟨rfl, hc₅⟩
termination_by s.left
decreasing_by
  rw [hleft₃] at hlt₄
  omega

/-! ## Statements -/

/-- A statement that was read over tokens is there in both texts. -/
theorem Carries.of {u v : Cursor} {hu : u.left < s.left} {hv : v.left < t.left}
    {make make' : Span → Stmt} (h : g.Carries s t) (hstart : g.margin ≤ s.left)
    (hnext : g.Carries u v)
    (hmake : ∀ span, make' (span.shift g.move.bytes) = (make span).move g.move) :
    (ParsedStmt.of v hv make').value = (ParsedStmt.of u hu make).value.map (.move g.move) ∧
      g.Carries (ParsedStmt.of u hu make).next (ParsedStmt.of v hv make').next := by
  have hlt : u.left < g.size := Nat.lt_of_lt_of_le hu h.left_le
  refine ⟨?_, hnext⟩
  simp only [ParsedStmt.of, Option.map_some]
  rw [h.span_eq hstart, hnext.last hlt, ← Span.shift_cover, hmake]

theorem expressionStatement_coincides (h : g.Carries s t)
    (hsettled : g.Settled s (expressionStatement s).next) :
    (expressionStatement t).value = (expressionStatement s).value.map (.move g.move) ∧
      g.Carries (expressionStatement s).next (expressionStatement t).next := by
  have hstart := hsettled.start (expressionStatement_reads s).leadsTo
  unfold expressionStatement at hsettled ⊢
  have he := expression_agrees h
  have hread := expression_reads s
  generalize expression s = p at he hread hsettled ⊢
  generalize expression t = q at he ⊢
  obtain ⟨e, s₁, h₁⟩ := p
  obtain ⟨e', t₁, h₁'⟩ := q
  dsimp only [Agrees] at he hread hsettled ⊢
  by_cases hlt : s₁.left < s.left
  · simp only [hlt, dif_pos] at hsettled ⊢
    have hsemicolon := s₁.leadsTo_eatSemicolon
    have hleft : g.margin ≤ s₁.left :=
      (hsettled.after hread.leadsTo hsemicolon (.expression hread)).start hsemicolon
    obtain ⟨rfl, hc₁⟩ := he hleft
    have hlt' : t₁.left < t.left := by
      rw [h.left_eq, hc₁.left_eq]
      omega
    simp only [hlt', dif_pos]
    exact h.of hstart (hc₁.eatSemicolon hleft) fun _ => rfl
  · simp only [hlt, dif_neg, not_false_iff] at hsettled ⊢
    obtain ⟨rfl, hc₁⟩ := he (by omega)
    have hlt' : ¬t₁.left < t.left := by
      rw [h.left_eq, hc₁.left_eq]
      omega
    simp only [hlt', dif_neg, not_false_iff]
    exact ⟨rfl, hc₁⟩

mutual

/-- One statement is read the same in the longer text, if what follows the text makes no
difference to it. -/
theorem statement_coincides {s t : Cursor} (h : g.Carries s t)
    (hsettled : g.Settled s (statement s).next) :
    (statement t).value = (statement s).value.map (.move g.move) ∧
      g.Carries (statement s).next (statement t).next := by
  have hstart := hsettled.start (statement_reads s).leadsTo
  rw [statement.eq_def s] at hsettled ⊢
  rw [statement.eq_def t]
  rcases h.eatWord hstart .importWord with ⟨hs₁, ht₁⟩ | ⟨s₁, hlt, t₁, hlt', hs₁, ht₁, hc₁⟩
  rotate_left
  · simp only [hs₁, ht₁] at hsettled ⊢
    have hword := leadsTo_eatWord hs₁
    have hread := (spells_importRest s₁).leadsTo
    have hrest := importRest_coincides hc₁
    generalize importRest s₁ = p at hsettled hrest hread ⊢
    generalize importRest t₁ = q at hrest ⊢
    obtain ⟨found, s₂, h₂⟩ := p
    obtain ⟨found', t₂, h₂'⟩ := q
    cases found with
    | none =>
      obtain ⟨rfl, hc₂⟩ := hrest (hsettled.after hword hread fun _ => .of_eatWord hs₁)
      exact ⟨rfl, hc₂⟩
    | some decl =>
      obtain ⟨rfl, hc₂⟩ := hrest (hsettled.after hword hread fun _ => .of_eatWord hs₁)
      exact h.of hstart hc₂ fun _ => rfl
  rcases h.take hstart varKind? with ⟨hs₂, ht₂⟩ | ⟨kind, span, s₁, hlt, t₁, hlt', hs₂, ht₂, hc₁⟩
  rotate_left
  · simp only [hs₁, ht₁, hs₂, ht₂] at hsettled ⊢
    have hds := declarators_coincides kind hc₁ (hsettled.after (leadsTo_take hs₂)
      (declarators_reads kind s₁).leadsTo fun _ => .of_take hs₂ rfl)
    generalize declarators kind s₁ = p at hds ⊢
    generalize declarators kind t₁ = q at hds ⊢
    obtain ⟨ds, s₂, h₂⟩ := p
    obtain ⟨ds', t₂, h₂'⟩ := q
    obtain ⟨rfl, hc₂⟩ := hds
    exact h.of hstart hc₂ fun _ => rfl
  rcases h.eat hstart .lbrace with ⟨hs₃, ht₃⟩ | ⟨s₁, hlt, t₁, hlt', hs₃, ht₃, hc₁⟩
  rotate_left
  · have hspan := h.span_eq hstart
    simp only [hs₁, ht₁, hs₂, ht₂, hs₃, ht₃] at hsettled ⊢
    have hbody := statements_agrees true hc₁
    have hread := (leadsTo_eat hs₃).trans (statements_reads true s₁).leadsTo
    generalize statements true s₁ = p at hbody hread hsettled ⊢
    generalize statements true t₁ = q at hbody ⊢
    obtain ⟨body, s₂, h₂⟩ := p
    obtain ⟨body', t₂, h₂'⟩ := q
    have hclosing (hc₂ : g.Carries s₂ t₂) := hc₂.closing .brace s.span
    have hend := Unended.closing .brace s.span hread
    have hclosed := (s₂.spells_closing .brace s.span).leadsTo
    rw [← hspan] at hclosing
    generalize s₂.closing .brace s.span = p at hclosing hend hclosed hsettled ⊢
    generalize t₂.closing .brace t.span = q at hclosing ⊢
    obtain ⟨closed, s₃, h₃⟩ := p
    obtain ⟨closed', t₃, h₃'⟩ := q
    -- A block without a complaint ends with a brace.
    have hleft : g.margin ≤ s₃.left := by
      refine (hsettled.after (hread.trans hclosed) (.refl s₃) fun hclean => hend ?_).start
        (.refl s₃)
      exact (hclean.split hread.diagnostics hclosed.diagnostics).2
    obtain ⟨rfl, hc₂⟩ := hbody (Nat.le_trans hleft h₃)
    obtain ⟨-, hc₃⟩ := hclosing hc₂ hleft
    exact h.of hstart hc₃ fun _ => rfl
  rcases h.eat hstart .semicolon with ⟨hs₄, ht₄⟩ | ⟨s₁, hlt, t₁, hlt', hs₄, ht₄, hc₁⟩
  rotate_left
  · simp only [hs₁, ht₁, hs₂, ht₂, hs₃, ht₃, hs₄, ht₄]
    exact h.of hstart hc₁ fun _ => rfl
  simp only [hs₁, ht₁, hs₂, ht₂, hs₃, ht₃, hs₄, ht₄, h.isAt_eq hstart] at hsettled ⊢
  by_cases hbrace : s.isAt .rbrace
  · simp only [hbrace, if_true]
    exact ⟨rfl, h.complain hstart _⟩
  · simp only [hbrace, Bool.false_eq_true, if_false] at hsettled ⊢
    exact expressionStatement_coincides h hsettled
termination_by 2 * s.left

theorem statements_agrees (inBlock : Bool) {s t : Cursor} (h : g.Carries s t) :
    g.Agrees (Stmt.moveAll g.move) (statements inBlock s) (statements inBlock t) := by
  refine .of_start fun hstart hleft => ?_
  rw [statements.eq_def inBlock s] at hleft ⊢
  rw [statements.eq_def inBlock t]
  have hempty : t.left = 0 ↔ s.left = 0 := by
    rcases h.cases_rest hstart with ⟨hs, ht, -⟩ | ⟨k, rest, more, hs, ht⟩
    · rw [left, left, hs, ht]
    · simp [left, hs, ht]
  have hends : t.left = 0 ∨ (inBlock ∧ t.isAt .rbrace) ↔
      s.left = 0 ∨ (inBlock ∧ s.isAt .rbrace) := by rw [hempty, h.isAt_eq hstart]
  by_cases hend : s.left = 0 ∨ (inBlock ∧ s.isAt .rbrace)
  · rw [dif_pos hend, dif_pos (hends.2 hend)]
    exact ⟨rfl, h⟩
  rw [dif_neg hend] at hleft ⊢
  rw [dif_neg (mt hends.1 hend)]
  have hone (hleft : g.margin ≤ (statement s).next.left) := statement_coincides h (.inl hleft)
  generalize statement s = p at hone hleft ⊢
  generalize statement t = q at hone ⊢
  obtain ⟨found, s₁, h₁, hlt⟩ := p
  obtain ⟨found', t₁, h₁', hlt'⟩ := q
  dsimp only at hone hleft ⊢
  cases found with
  | none =>
    dsimp only at hleft ⊢
    have hskip : s₁.toStatement.left < s.left := left_toStatement_lt h₁ (by omega)
    have hvisible : g.margin ≤ s₁.toStatement.left :=
      Nat.le_trans hleft (statements inBlock s₁.toStatement).le
    obtain ⟨rfl, hc₁⟩ := hone (Nat.le_trans hvisible (left_toStatement_le s₁))
    exact statements_agrees inBlock (hc₁.toStatement hvisible) hleft
  | some one =>
    dsimp only at hleft ⊢
    have hshorter := hlt rfl
    have hvisible : g.margin ≤ s₁.left := Nat.le_trans hleft (statements inBlock s₁).le
    obtain ⟨rfl, hc₁⟩ := hone hvisible
    obtain ⟨hmore, hc₂⟩ := statements_agrees inBlock hc₁ hleft
    exact ⟨congrArg (Stmt.move g.move one :: ·) hmore, hc₂⟩
termination_by 2 * s.left + 1

end

/-- The statements of a text that was read without a complaint, and whose last token is a
semicolon, are read first; then reading goes on at the end of the text. -/
theorem statements_append {s t : Cursor} (h : g.Carries s t)
    (hclean : s.Clean (statements false s).next)
    (hends : ∀ k ∈ s.rest.getLast?, k.IsSemicolon) :
    ∃ u, g.Carries (statements false s).next u ∧ u.finish = t.finish ∧
      (statements false t).value =
        Stmt.moveAll g.move (statements false s).value ++ (statements false u).value ∧
      (statements false t).next = (statements false u).next := by
  rw [statements.eq_def false s] at hclean ⊢
  by_cases hempty : s.left = 0
  · simp only [hempty, true_or, dif_pos]
    exact ⟨t, h, rfl, rfl, rfl⟩
  have hempty' : t.left ≠ 0 := by
    rw [h.left_eq]
    omega
  rw [statements.eq_def false t]
  simp only [hempty, hempty', Bool.false_eq_true, false_and, or_self, dif_neg, not_false_iff]
    at hclean ⊢
  obtain ⟨passed, hmoves⟩ := (statement_reads s).leadsTo
  obtain ⟨passed', hmoves'⟩ := (statement_reads t).leadsTo
  have hfound := statement_of_clean (s := s)
  have hone := statement_coincides h
  generalize statement s = p at hclean hmoves hfound hone ⊢
  generalize statement t = q at hone hmoves' ⊢
  obtain ⟨found, s₁, h₁, hlt⟩ := p
  obtain ⟨found', t₁, h₁', hlt'⟩ := q
  dsimp only at hclean hmoves hfound hone ⊢
  cases found with
  | none =>
    have hmore := s₁.leadsTo_toStatement.trans (statements_reads false s₁.toStatement).leadsTo
    exact absurd (hfound (hclean.split hmoves.diagnostics hmore.diagnostics).1)
      Bool.false_ne_true
  | some one =>
    have hshorter := hlt rfl
    obtain ⟨hclean₁, hclean₂⟩ := hclean.split hmoves.diagnostics
      (statements_reads false s₁).leadsTo.diagnostics
    obtain ⟨before, k, rfl⟩ := (List.eq_nil_or_concat passed).resolve_left
      (hmoves.left_lt_iff.1 hshorter)
    rw [List.concat_eq_append] at hmoves
    have hsettled : g.Settled s s₁ := by
      cases hrest : s₁.rest with
      | cons l rest =>
        have hmargin := g.margin_le_one
        refine .inl ?_
        rw [left, hrest, List.length_cons]
        omega
      | nil =>
        -- The statement ends with the text, so it ends with the semicolon.
        refine .inr ⟨hclean₁, before, k, hmoves, hends k ?_⟩
        rw [hmoves.rest, hrest, List.append_nil, List.getLast?_concat]
        rfl
    obtain ⟨rfl, hc₁⟩ := hone hsettled
    have hends₁ (l : Token) (hl : l ∈ s₁.rest.getLast?) : l.IsSemicolon := by
      refine hends l ?_
      rw [hmoves.rest, List.getLast?_append, hl, Option.some_or]
      rfl
    obtain ⟨u, hu, hfinish, hvalue, hnext⟩ := statements_append hc₁ hclean₂ hends₁
    exact ⟨u, hu, hfinish.trans hmoves'.finish, congrArg (Stmt.move g.move one :: ·) hvalue,
      hnext⟩
termination_by s.left

end ScriptFold.Grammar.Embedding
