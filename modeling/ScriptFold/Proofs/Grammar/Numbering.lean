import ScriptFold.Proofs.Expr.Ids
import ScriptFold.Proofs.Grammar.Reading

/-!
The numbering of what is read.

A reading numbers what it gives from the free identity of its cursor on, up to the free identity of
the cursor it leads to: a node takes the free identity when it is complete, and no other step of a
cursor changes it. This holds for all tokens, also where something is wrong with them.
-/

namespace ScriptFold

namespace Cursor

/-! ## Cursors -/

variable {s t : Cursor} {ht : t.left < s.left}

theorem nextId_take {β : Type} {test : TokenKind → Option β} {b : β} {span : Span}
    (h : s.take test = some (b, span, ⟨t, ht⟩)) : t.nextId = s.nextId := by
  unfold take at h
  split at h
  · cases h
  · obtain ⟨_, _, he⟩ := Option.map_eq_some_iff.1 h
    cases he
    rfl

theorem nextId_eat {m : Mark} (h : s.eat m = some ⟨t, ht⟩) : t.nextId = s.nextId := by
  obtain ⟨⟨_, _, _⟩, htake, rfl⟩ := Option.map_eq_some_iff.1 h
  exact nextId_take htake

theorem nextId_eatWord {k : Keyword} (h : s.eatWord k = some ⟨t, ht⟩) : t.nextId = s.nextId := by
  obtain ⟨⟨_, _, _⟩, htake, rfl⟩ := Option.map_eq_some_iff.1 h
  exact nextId_take htake

theorem nextId_binding {name : Name} (h : s.binding = some (name, ⟨t, ht⟩)) :
    t.nextId = s.nextId := by
  obtain ⟨⟨_, _, _⟩, htake, he⟩ := Option.map_eq_some_iff.1 h
  cases he
  exact nextId_take htake

@[simp] theorem nextId_report (d : Diagnostic) (s : Cursor) : (s.report d).nextId = s.nextId := rfl

@[simp] theorem nextId_complain (c : Complaint) (s : Cursor) :
    (s.complain c).nextId = s.nextId := rfl

@[simp] theorem nextId_node (span : Span) (s : Cursor) :
    (s.node span).2.nextId = s.nextId + 1 := rfl

@[simp] theorem id_node (span : Span) (s : Cursor) : (s.node span).1.id = s.nextId := rfl

@[simp] theorem nextId_advance (s : Cursor) : s.advance.nextId = s.nextId := by
  unfold advance
  split <;> rfl

@[simp] theorem nextId_skip (n : Nat) (s : Cursor) : (s.skip n).nextId = s.nextId := by
  induction n generalizing s with
  | zero => rfl
  | succ n ih => rw [skip, ih, nextId_advance]

@[simp] theorem nextId_toStatement (s : Cursor) : s.toStatement.nextId = s.nextId :=
  nextId_skip _ s

@[simp] theorem nextId_eatSemicolon (s : Cursor) : s.eatSemicolon.nextId = s.nextId := by
  unfold eatSemicolon
  split
  · rename_i h
    exact nextId_eat h
  · rfl

@[simp] theorem nextId_closing (d : Delimiter) (opened : Span) (s : Cursor) :
    (s.closing d opened).next.nextId = s.nextId := by
  unfold closing
  split
  · rename_i h
    exact nextId_eat h
  · dsimp only
    split
    · rename_i h
      rw [nextId_eat h, nextId_skip, nextId_report]
    · rw [nextId_skip, nextId_report]

@[simp] theorem nextId_expect (wanted : TokenKind) (s : Cursor) :
    (s.expect wanted).next.nextId = s.nextId := by
  unfold expect
  split
  · rename_i h
    exact nextId_take h
  · rfl

@[simp] theorem nextId_expectBinding (s : Cursor) :
    s.expectBinding.next.nextId = s.nextId := by
  unfold expectBinding
  split
  · rename_i h
    exact nextId_binding h
  · rfl

/-- A list between commas takes no identity if its items take none. -/
theorem nextId_commaList {α : Type} (closing : Mark) {n : Nat}
    {item : (t : Cursor) → t.left ≤ n → Parsed (Option α) t}
    (hitem : ∀ t ht, (item t ht).next.nextId = t.nextId) (s : Cursor) (hs : s.left ≤ n) :
    (s.commaList closing n item hs).next.nextId = s.nextId := by
  rw [commaList]
  split
  · rfl
  have hone := hitem s hs
  generalize item s hs = p at hone ⊢
  obtain ⟨found, s₁, h₁⟩ := p
  dsimp only at hone ⊢
  have hid : (if found.isSome then s₁ else s₁.skip (runToComma closing s₁.rest)).nextId =
      s.nextId := by
    split
    · exact hone
    · exact (nextId_skip _ _).trans hone
  have hle : (if found.isSome then s₁ else s₁.skip (runToComma closing s₁.rest)).left ≤
      s.left := by
    split
    · exact h₁
    · rw [left_skip]
      omega
  split
  · exact hid
  · rename_i s₃ h₃ heat
    exact (nextId_commaList closing hitem s₃ (by omega)).trans ((nextId_eat heat).trans hid)
termination_by s.left
decreasing_by omega

end Cursor

namespace Grammar

open Cursor

/-! ## Expressions -/

@[simp] theorem nextId_checkTarget (target : Expr) (s : Cursor) :
    (checkTarget target s).nextId = s.nextId := by
  unfold checkTarget
  split <;> rfl

theorem ids_apply (op : Connective) (n : Node) (left right : Expr) :
    (op.apply n left right).ids = left.ids ++ right.ids ++ [n.id] := by
  cases op <;> rfl

theorem test_of_take {β : Type} {test : TokenKind → Option β} {s : Cursor} {b : β} {span : Span}
    {t : { t : Cursor // t.left < s.left }} (h : s.take test = some (b, span, t)) :
    ∃ k, test k = some b := by
  unfold take at h
  split at h
  · cases h
  · obtain ⟨b', hb, he⟩ := Option.map_eq_some_iff.1 h
    cases he
    exact ⟨_, hb⟩

theorem ids_atom {k : TokenKind} {make : Node → Expr} (h : atom? k = some make) (n : Node) :
    (make n).ids = [n.id] := by
  unfold atom? at h
  split at h
  all_goals first
    | cases h; rfl
    | (obtain ⟨_, _, rfl⟩ := Option.map_eq_some_iff.1 h; rfl)

theorem ids_plainKey {k : TokenKind} {make : Node → Expr} {short : Option String}
    (h : plainKey? k = some (make, short)) (n : Node) : (make n).ids = [n.id] := by
  unfold plainKey? at h
  split at h
  all_goals first
    | cases h; rfl
    | (obtain ⟨_, _, he⟩ := Option.map_eq_some_iff.1 h; cases he; rfl)

theorem numbered_node {lo : Nat} {is : List Nat} {s t : Cursor} (his : Numbered lo is s.nextId)
    (hst : t.nextId = s.nextId) (span : Span) :
    Numbered lo (is ++ [(t.node span).1.id]) (t.node span).2.nextId := by
  rw [id_node, nextId_node, hst]
  exact his.snoc

theorem numbered_leaf {s t : Cursor} (hst : t.nextId = s.nextId) (span : Span) :
    Numbered s.nextId [(t.node span).1.id] (t.node span).2.nextId :=
  numbered_node (.nil (Nat.le_refl s.nextId)) hst span

theorem numbered_memberName (s : Cursor) :
    Numbered s.nextId (memberName s).value.ids (memberName s).next.nextId := by
  unfold memberName
  split
  · rename_i x span t h htake
    exact numbered_leaf (nextId_take htake) span
  · exact numbered_leaf (nextId_complain _ s) s.span

theorem numbered_noExpression (s : Cursor) :
    Numbered s.nextId (noExpression s).value.ids (noExpression s).next.nextId := by
  unfold noExpression
  dsimp only
  split
  · exact numbered_leaf (nextId_complain _ s) s.span
  · exact numbered_leaf (by rw [nextId_advance, nextId_complain]) s.span

theorem Opens.nextId {link : Link} {s t : Cursor} {opened : Span} (h : Opens link s opened t) :
    t.nextId = s.nextId := by
  cases h with
  | direct htake => exact nextId_take htake
  | optional hoptional htake => exact (nextId_take htake).trans (nextId_take hoptional)

def Reading.ids : Reading → List NodeId
  | expr e => e.ids
  | operands es => Expr.idsAll es
  | elements es => Expr.idsElements es
  | item _ found => Expr.idsAll found.toList
  | items _ es => Expr.idsAll es

theorem ids_item (place : Place) (e : Expr) : (Reading.item place (some e)).ids = e.ids := by
  simp only [Reading.ids, Option.toList_some, Expr.idsAll, List.append_nil]

/-- **Readings number what they give.** -/
theorem Reads.numbered {s t : Cursor} {r : Reading} (h : Reads s r t) :
    Numbered s.nextId r.ids t.nextId := by
  induction h with
  | atom htake =>
    obtain ⟨k, hk⟩ := test_of_take htake
    rw [Reading.ids, ids_atom hk]
    exact numbered_leaf (nextId_take htake) _
  | nothing s => exact numbered_noExpression s
  | group hopen _ ih =>
    rw [nextId_eat hopen] at ih
    rw [nextId_closing]
    exact ih
  | @array s t u v _ es hopen _ hclose ih | @object s t u v _ ms hopen _ hclose ih =>
    rw [nextId_eat hopen] at ih
    exact numbered_node ih (by rw [← hclose, nextId_closing]) _
  | unary htake _ ih =>
    rw [nextId_take htake] at ih
    exact numbered_node ih rfl _
  | connective _ htake _ ihl ihr =>
    rw [nextId_take htake] at ihr
    rw [Reading.ids, ids_apply]
    exact numbered_node (ihl.append ihr) rfl _
  | conditional _ hquestion _ _ iht ihc iha =>
    rw [nextId_eat hquestion] at ihc
    rw [nextId_expect] at iha
    exact numbered_node ((iht.append ihc).append iha) rfl _
  | assign _ htake _ iht ihv =>
    rw [nextId_checkTarget, nextId_take htake] at ihv
    exact numbered_node (iht.append ihv) rfl _
  | sequence _ _ _ ihf ihm => exact numbered_node (ihf.append ihm) rfl _
  | operandsEnd _ | elementsEnd _ | itemsEnd _ _ | noMember _ => exact .nil (Nat.le_refl _)
  | operand hcomma _ _ ihe ihm =>
    rw [nextId_eat hcomma] at ihe
    exact ihe.append ihm
  | @named s t u v _ link span e optional _ htake hname ih =>
    have hmember := numbered_memberName u
    rw [nextId_take htake, hname] at hmember
    exact numbered_node (ih.append hmember) rfl _
  | @index s t u v w opened e key optional _ hopen _ hclose ihe ihk
  | @call s t u v w opened e key optional _ hopen _ hclose ihe ihk =>
    rw [hopen.nextId] at ihk
    exact numbered_node (ihe.append ihk) (by rw [← hclose, nextId_closing]) _
  | hole hcomma _ ih =>
    rw [nextId_eat hcomma] at ih
    exact ih
  | lastElement _ ih =>
    rw [ids_item] at ih
    simpa only [Reading.ids, Expr.idsElements, List.append_nil] using ih
  | element _ hcomma _ ihe ihm =>
    rw [ids_item] at ihe
    rw [nextId_eat hcomma] at ihm
    exact ihe.append ihm
  | plain _ ih =>
    rw [ids_item]
    exact ih
  | spread htake _ ih =>
    rw [nextId_take htake] at ih
    rw [ids_item]
    exact numbered_node ih rfl _
  | @property s t u v _ make span short _ value htake hcolon _ ih =>
    obtain ⟨k, hk⟩ := test_of_take htake
    have hkey := numbered_leaf (nextId_take htake) span
    rw [nextId_eat hcolon] at ih
    rw [ids_item, Expr.ids, ids_plainKey hk]
    exact numbered_node (hkey.append ih) rfl _
  | @shorthand s t u _ make span name htake _ hvalue =>
    obtain ⟨k, hk⟩ := test_of_take htake
    have hkey := numbered_leaf (nextId_take htake) span
    have hboth := numbered_node hkey rfl (make (t.node span).1).span
    rw [hvalue] at hboth
    rw [ids_item, Expr.ids, ids_plainKey hk]
    exact numbered_node hboth rfl _
  | computed hopen _ hclose hcolon _ ihk ihv =>
    rw [nextId_eat hopen] at ihk
    rw [nextId_eat hcolon, ← hclose, nextId_closing] at ihv
    rw [ids_item]
    exact numbered_node (ihk.append ihv) rfl _
  | @noColon s t _ make span htake =>
    refine .nil ?_
    rw [nextId_complain, nextId_node, nextId_take htake]
    exact Nat.le_succ _
  | noColonComputed hopen _ ih =>
    rw [nextId_eat hopen] at ih
    rw [nextId_complain, nextId_closing]
    exact .nil ih.le
  | lastItem _ ih => exact ih
  | item _ hcomma _ ihe ihm =>
    rw [ids_item] at ihe
    rw [nextId_eat hcomma] at ihm
    exact ihe.append ihm
  | lastSkipped _ n ih =>
    rw [nextId_skip]
    exact .nil ih.le
  | skipped _ hcomma _ ihe ihm =>
    rw [nextId_eat hcomma, nextId_skip] at ihm
    exact ihe.append ihm

/-! ## Statements -/

theorem nextId_importSpecifier (s : Cursor) : (importSpecifier s).next.nextId = s.nextId := by
  unfold importSpecifier
  split
  · rfl
  · rename_i name bindable span s₁ h₁ htake
    have hid := nextId_take htake
    split
    · rename_i s₂ h₂ heat
      have hbound := nextId_expectBinding s₂
      generalize s₂.expectBinding = p at hbound ⊢
      obtain ⟨found, s₃, h₃⟩ := p
      exact (hbound.trans (nextId_eatWord heat)).trans hid
    · split
      · exact hid
      · exact hid

theorem nextId_importSource (specifiers : List ImportSpecifier) (s : Cursor) :
    (importSource specifiers s).next.nextId = s.nextId := by
  unfold importSource
  have hfrom := nextId_expect (.keyword .fromWord) s
  generalize s.expect (.keyword .fromWord) = p at hfrom ⊢
  obtain ⟨found, s₁, h₁⟩ := p
  dsimp only at hfrom ⊢
  split
  · split
    · rename_i source span s₂ h₂ htake
      exact ((nextId_eatSemicolon s₂).trans (nextId_take htake)).trans hfrom
    · exact hfrom
  · exact hfrom

theorem nextId_importGroup (specifiers : List ImportSpecifier) (s : Cursor) :
    (importGroup specifiers s).next.nextId = s.nextId := by
  unfold importGroup
  split
  · rename_i s₁ h₁ heat
    have hid := nextId_eat heat
    split
    · exact hid
    · rename_i s₂ h₂ heat₂
      have hbound := nextId_expectBinding s₂
      generalize s₂.expectBinding = p at hbound ⊢
      obtain ⟨found, s₃, h₃⟩ := p
      have hid₃ : s₃.nextId = s.nextId := (hbound.trans (nextId_eatWord heat₂)).trans hid
      cases found with
      | none => exact hid₃
      | some name => exact (nextId_importSource _ s₃).trans hid₃
  · rename_i s₁ h₁ heat _
    have hnamed := nextId_commaList .rbrace (fun t _ => nextId_importSpecifier t) s₁
      (Nat.le_refl s₁.left)
    generalize s₁.commaList .rbrace s₁.left (fun t _ => importSpecifier t) (Nat.le_refl _) = p
      at hnamed ⊢
    obtain ⟨named, s₂, h₂⟩ := p
    dsimp only at hnamed ⊢
    have hclosing := nextId_closing .brace s.span s₂
    generalize s₂.closing .brace s.span = p at hclosing ⊢
    obtain ⟨closed, s₃, h₃⟩ := p
    have hid : s₃.nextId = s.nextId := (hclosing.trans hnamed).trans (nextId_eat heat)
    dsimp only
    split
    · exact (nextId_importSource _ s₃).trans hid
    · exact hid
  · rfl

theorem nextId_importRest (s : Cursor) : (importRest s).next.nextId = s.nextId := by
  unfold importRest
  split
  · rename_i source span s₁ h₁ htake
    exact (nextId_eatSemicolon s₁).trans (nextId_take htake)
  split
  · exact nextId_importGroup [] s
  · rename_i name s₁ h₁ hbinding
    have hid := nextId_binding hbinding
    dsimp only
    split
    · rename_i s₂ h₂ heat
      exact (nextId_importGroup _ s₂).trans ((nextId_eat heat).trans hid)
    · exact (nextId_importSource _ s₁).trans hid

@[simp] theorem nextId_checkInitializer (kind : VarKind) (name : Name) (init : Option Expr)
    (s : Cursor) : (checkInitializer kind name init s).nextId = s.nextId := by
  unfold checkInitializer
  split <;> rfl

def declaratorIds (ds : List Declarator) : List NodeId :=
  ds.flatMap fun d => (d.init.map Expr.ids).getD []

def StmtReading.ids : StmtReading → List NodeId
  | value init => (init.map Expr.ids).getD []
  | declarators _ ds => declaratorIds ds
  | stmt found => Stmt.idsAll found.toList
  | body stmts => Stmt.idsAll stmts

theorem ids_stmt (one : Stmt) : (StmtReading.stmt (some one)).ids = one.ids := by
  simp only [StmtReading.ids, Option.toList_some, Stmt.idsAll, List.append_nil]

theorem ReadsStmt.numbered {s t : Cursor} {r : StmtReading} (h : ReadsStmt s r t) :
    Numbered s.nextId r.ids t.nextId := by
  induction h with
  | noValue _ | strayBrace _ | bodyEnd _ => exact .nil (Nat.le_refl _)
  | value heq he =>
    have hvalue := he.numbered
    rw [nextId_eat heq] at hvalue
    exact hvalue
  | noName kind _ =>
    rw [nextId_toStatement, nextId_complain]
    exact .nil (Nat.le_refl _)
  | lastDeclarator hname _ ih =>
    rw [nextId_binding hname] at ih
    rw [nextId_eatSemicolon, nextId_checkInitializer]
    simpa only [StmtReading.ids, declaratorIds, List.flatMap_cons, List.flatMap_nil,
      List.append_nil] using ih
  | declarator hname _ hcomma _ ihi ihm =>
    rw [nextId_binding hname] at ihi
    rw [nextId_eat hcomma, nextId_checkInitializer] at ihm
    exact ihi.append ihm
  | @importDecl s t u _ decl hword _ hnext =>
    refine .nil (Nat.le_of_eq ?_)
    rw [← hnext, nextId_importRest, nextId_eatWord hword]
  | @noImport s t _ hword _ =>
    refine .nil (Nat.le_of_eq ?_)
    rw [nextId_importRest, nextId_eatWord hword]
  | declare htake _ ih =>
    rw [nextId_take htake] at ih
    rw [ids_stmt, Stmt.ids]
    exact ih
  | block hopen _ hclose ih =>
    rw [nextId_eat hopen] at ih
    rw [ids_stmt, Stmt.ids, ← hclose, nextId_closing]
    exact ih
  | empty hsemicolon => exact .nil (Nat.le_of_eq (nextId_eat hsemicolon).symm)
  | expr he =>
    rw [ids_stmt, Stmt.ids, nextId_eatSemicolon]
    exact he.numbered
  | noExpr he => exact .nil he.numbered.le
  | stmt _ _ ihone ihmore =>
    rw [ids_stmt] at ihone
    exact ihone.append ihmore
  | recovery _ _ ihnone ihmore =>
    rw [nextId_toStatement] at ihmore
    exact ihnone.append ihmore

/-! ## Source texts -/

/-- **Identities of programs.** In a program the identities of nodes increase in the order in which
the nodes are complete; they start at 0 and stay below the first free one. -/
theorem parseProgram_numbered (source : String) :
    Numbered 0 (Stmt.idsAll (parseProgram source).value.body) (parseProgram source).nextId :=
  (statements_reads false (.ofTokens (tokenize source).tokens 0)).numbered

theorem wholeExpression_numbered (s : Cursor) :
    Numbered s.nextId (wholeExpression s).value.ids (wholeExpression s).next.nextId := by
  unfold wholeExpression
  have he := (expression_reads s).numbered
  generalize expression s = p at he ⊢
  obtain ⟨e, s₁, h₁⟩ := p
  dsimp only at he ⊢
  rw [← nextId_eatSemicolon s₁] at he
  split
  · exact he
  · exact he

/-- The identities in an expression increase likewise from a given one on. -/
theorem parseExpression_numbered (source : String) (firstId : NodeId) :
    Numbered firstId (parseExpression source firstId).value.ids
      (parseExpression source firstId).nextId :=
  wholeExpression_numbered (.ofTokens (tokenize source).tokens firstId)

end Grammar

end ScriptFold
