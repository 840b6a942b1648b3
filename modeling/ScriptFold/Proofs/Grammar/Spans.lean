import ScriptFold.Proofs.Expr.Nodes
import ScriptFold.Proofs.Grammar.Between
import ScriptFold.Proofs.Grammar.CleanParse

/-!
Spans of nodes and statements.

A node stands between the cursor that its reading started from and the cursor that it led to, and
so do its children. Only an invalid node may stand on a token that is not read, and a source that is
read without a diagnostic has none.
-/

namespace ScriptFold

open Cursor

namespace Grammar

open ScriptFold.Expr

/-! ## Expressions -/

def Reading.roots : Reading → List Expr
  | expr e => [e]
  | operands es => es
  | elements es => es.filterMap fun e => e
  | item _ found => found.toList
  | items _ es => es

theorem lays_memberName (s : Cursor) : Lays s (memberName s).next [(memberName s).value] := by
  refine .single (spells_memberName s).leadsTo fun hs => ?_
  unfold memberName
  split
  · rename_i x span t ht htake
    obtain ⟨k, -, hmoves, -⟩ := moves_take htake
    have hname : Lays s t [.ident (t.node span).1 x] := lays_leaf hmoves rfl rfl
    exact (hname.node span).only hs
  · exact fun hintact => absurd rfl (hintact.self _)

theorem plainKey?_leaf {k : TokenKind} {make : Node → Expr} {short : Option String}
    (h : plainKey? k = some (make, short)) (n : Node) :
    (make n).children = [] ∧ (make n).span = n.span := by
  obtain ⟨hplain, -, -, -, hspan⟩ := plainKey?_spec h n
  refine ⟨?_, hspan⟩
  revert hplain
  cases make n <;> first | exact fun _ => rfl | exact nofun

/-- What was read without an invalid node stands between the cursors of its reading. -/
theorem Reads.lays {s t : Cursor} {r : Reading} (h : Reads s r t) : Lays s t r.roots := by
  induction h with
  | @atom s t _ make span htake =>
    obtain ⟨k, hk, hmoves, -⟩ := moves_take htake
    obtain ⟨hleaf, -, -, -, hspan⟩ := atom?_spec hk (t.node span).1
    exact (lays_leaf hmoves hspan hleaf).node span
  | nothing s =>
    refine .single (Reads.nothing s).leadsTo fun _ hintact => ?_
    unfold noExpression at hintact
    dsimp only at hintact
    split at hintact <;> exact absurd rfl (hintact.self _)
  | group hopen _ ih => exact (ih.sooner (leadsTo_eat hopen)).later (leadsTo_closing rfl)
  | array hopen _ hclose ih | object hopen _ hclose ih =>
    obtain ⟨span, hmoves, -⟩ := moves_eat hopen
    have hinside := ih.later (leadsTo_closing hclose)
    have hparts := hinside.sooner (leadsTo_eat hopen)
    refine .node ?_ _
    exact lays_enclosed rfl rfl hmoves hinside.leadsTo hparts
  | unary htake _ ih | spread htake _ ih =>
    obtain ⟨k, -, hmoves, -⟩ := moves_take htake
    exact .node (lays_before rfl rfl hmoves ih) _
  | @connective s t u v _ _ _ op span l r _ htake _ ihl ihr =>
    have hchildren : (op.apply (v.node (l.span.cover r.span)).1 l r).children = [l] ++ [r] := by
      cases op <;> rfl
    have hspan : (op.apply (v.node (l.span.cover r.span)).1 l r).span = l.span.cover r.span := by
      cases op <;> rfl
    exact .node (lays_pair hspan hchildren ihl (.nothing (leadsTo_take htake)) ihr) _
  | @conditional s t u v w _ test c a _ hquestion _ _ iht ihc iha =>
    have hcolon := (v.spells_expect (.mark .colon)).leadsTo
    have hbetween := (ihc.sooner (leadsTo_eat hquestion)).later hcolon
    exact .node (lays_pair rfl rfl iht hbetween iha) _
  | @assign s t u v _ op span target value _ htake _ iht ihv =>
    have hsign := (leadsTo_take htake).trans (spells_checkTarget target u).leadsTo
    exact .node (lays_pair rfl rfl iht (.nothing hsign) ihv) _
  | sequence _ _ _ ihf ihm => exact .node (lays_after rfl rfl ihf ihm) _
  | operand hcomma _ _ ihe ihm => exact (ihe.append ihm).sooner (leadsTo_eat hcomma)
  | @named s t u v _ link span e optional _ htake hname ih =>
    have hmember := (lays_memberName u).sooner (leadsTo_take htake)
    rw [hname] at hmember
    exact .node (lays_after rfl rfl ih hmember) _
  | index _ hopen _ hclose ihe ihk | call _ hopen _ hclose ihe ihk =>
    have hinside := ihk.later (leadsTo_closing hclose)
    exact .node (lays_after rfl rfl ihe (hinside.sooner hopen.spells.leadsTo)) _
  | hole hcomma _ ih => exact ih.sooner (leadsTo_eat hcomma)
  | lastElement _ ih | plain _ ih | lastItem _ ih => exact ih
  | element _ hcomma _ ihe ihm | item _ hcomma _ ihe ihm =>
    exact ihe.append (ihm.sooner (leadsTo_eat hcomma))
  | @property s t u v _ make span short _ value htake hcolon _ ih =>
    obtain ⟨k, hk, hmoves, -⟩ := moves_take htake
    obtain ⟨hleaf, hspan⟩ := plainKey?_leaf hk (t.node span).1
    have hvalue := ih.sooner ((t.moves_node span).leadsTo.trans (leadsTo_eat hcolon))
    have hparts := (lays_leaf hmoves hspan hleaf).append hvalue
    refine .node ?_ _
    exact lays_enclosed rfl rfl hmoves hvalue.leadsTo hparts
  | @shorthand s t u _ make span name htake _ hvalue =>
    obtain ⟨k, hk, hmoves, -⟩ := moves_take htake
    obtain ⟨hleaf, hspan⟩ := plainKey?_leaf hk (t.node span).1
    subst hvalue
    -- The key and the value are the same token.
    have hname : Lays s t [.ident ((t.node span).2.node (make (t.node span).1).span).1 name] :=
      lays_leaf hmoves hspan rfl
    have hboth := (lays_leaf hmoves hspan hleaf).beside hname
    refine .node (.node (.node ?_ _) _) _
    exact lays_enclosed rfl rfl hmoves (.refl t) hboth
  | computed hopen _ hclose hcolon _ ihk ihv =>
    obtain ⟨span, hmoves, -⟩ := moves_eat hopen
    have hvalue := ihv.sooner ((leadsTo_closing hclose).trans (leadsTo_eat hcolon))
    have hinside := ihk.append hvalue
    have hparts := hinside.sooner (leadsTo_eat hopen)
    refine .node ?_ _
    exact lays_enclosed rfl rfl hmoves hinside.leadsTo hparts
  | operandsEnd hcomma => exact .nothing (Reads.operandsEnd hcomma).leadsTo
  | elementsEnd s => exact .nothing (Reads.elementsEnd s).leadsTo
  | noMember s => exact .nothing (Reads.noMember s).leadsTo
  | noColon htake => exact .nothing (Reads.noColon htake).leadsTo
  | noColonComputed hopen hkey => exact .nothing (Reads.noColonComputed hopen hkey).leadsTo
  | itemsEnd s place => exact .nothing (Reads.itemsEnd s place).leadsTo
  | lastSkipped hnone n => exact .nothing (Reads.lastSkipped hnone n).leadsTo
  | @skipped s t u v place n _ more _ hcomma _ ihe ihm =>
    exact ihm.sooner (ihe.leadsTo.trans ((t.leadsTo_skip n).trans (leadsTo_eat hcomma)))

end Grammar

/-! ## Statements -/

namespace Stmt

def span : Stmt → Span
  | importDecl span _ | declare span _ _ | block span _ | expr span _ | empty span => span

mutual

def inner : Stmt → List Stmt
  | block span body => block span body :: innerAll body
  | s => [s]

def innerAll : List Stmt → List Stmt
  | [] => []
  | s :: rest => inner s ++ innerAll rest

end

/-- The span of the statement contains the spans of all nodes of its expressions. -/
def Encloses (s : Stmt) : Prop :=
  ∀ root ∈ s.roots, root.Intact → ∀ e : Expr, e.Within root → s.span.contains e.span = true

mutual

theorem WellFormed.roots (s : Stmt) (h : s.WellFormed) : ∀ e ∈ s.roots, e.WellFormed := by
  match s with
  | declare _ _ ds =>
    simp only [Stmt.roots, List.mem_filterMap, WellFormed] at h ⊢
    rintro e ⟨d, hd, he⟩
    exact (h d hd).2 e he
  | block _ body =>
    simp only [Stmt.roots, WellFormed] at h ⊢
    exact AllWellFormed.roots body h
  | expr _ e =>
    simp only [Stmt.roots, WellFormed] at h ⊢
    exact List.forall_mem_singleton.2 h
  | importDecl _ _ | empty _ => simp [Stmt.roots]

theorem AllWellFormed.roots (body : List Stmt) (h : AllWellFormed body) :
    ∀ e ∈ rootsAll body, e.WellFormed := by
  match body with
  | [] => simp [rootsAll]
  | s :: rest =>
    simp only [rootsAll, AllWellFormed] at h ⊢
    exact List.forall_mem_append.2 ⟨WellFormed.roots s h.1, AllWellFormed.roots rest h.2⟩

end

mutual

theorem roots_of_inner (s : Stmt) : ∀ one ∈ s.inner, one.roots ⊆ s.roots := by
  match s with
  | block _ body =>
    simp only [inner, Stmt.roots]
    refine List.forall_mem_cons.2 ⟨?_, rootsAll_of_innerAll body⟩
    rw [Stmt.roots]
    exact fun _ h => h
  | declare _ _ _ | expr _ _ | importDecl _ _ | empty _ =>
    simp only [inner]
    exact List.forall_mem_singleton.2 fun _ h => h

theorem rootsAll_of_innerAll (body : List Stmt) :
    ∀ one ∈ innerAll body, one.roots ⊆ rootsAll body := by
  match body with
  | [] => simp [innerAll]
  | s :: rest =>
    simp only [innerAll, rootsAll]
    refine List.forall_mem_append.2 ⟨fun one hone => ?_, fun one hone => ?_⟩
    · exact List.subset_append_of_subset_left _ (roots_of_inner s one hone)
    · exact List.subset_append_of_subset_right _ (rootsAll_of_innerAll rest one hone)

end

end Stmt

namespace Grammar

open ScriptFold.Expr

def StmtReading.roots : StmtReading → List Expr
  | value init => init.toList
  | declarators _ ds => ds.filterMap (·.init)
  | stmt found => found.toList.flatMap Stmt.roots
  | body stmts => Stmt.rootsAll stmts

def StmtReading.inner : StmtReading → List Stmt
  | value _ | declarators _ _ => []
  | stmt found => found.toList.flatMap Stmt.inner
  | body stmts => Stmt.innerAll stmts

theorem roots_declarators_cons (kind : VarKind) (d : Declarator) (ds : List Declarator) :
    (StmtReading.declarators kind (d :: ds)).roots =
      (StmtReading.value d.init).roots ++ (StmtReading.declarators kind ds).roots := by
  simp only [StmtReading.roots, List.filterMap_cons]
  cases d.init <;> rfl

theorem roots_stmt (one : Stmt) : (StmtReading.stmt (some one)).roots = one.roots := by
  rw [StmtReading.roots, Option.toList_some, List.flatMap_singleton]

/-- What was read of statements without an invalid node stands between the cursors of its
reading. -/
theorem ReadsStmt.lays {s t : Cursor} {r : StmtReading} (h : ReadsStmt s r t) :
    Lays s t r.roots := by
  induction h with
  | value heq he => exact he.lays.sooner (leadsTo_eat heq)
  | @lastDeclarator s t u _ kind name init hname _ ih =>
    have hend := (spells_checkInitializer kind name init u).leadsTo.trans
      (Cursor.leadsTo_eatSemicolon _)
    rw [roots_declarators_cons]
    exact (ih.append (.nothing hend)).sooner (leadsTo_binding hname)
  | @declarator s t u v w _ kind name init _ more hname _ hcomma _ ihi ihm =>
    have hcheck := (spells_checkInitializer kind name init u).leadsTo
    have hmore := ihm.sooner (hcheck.trans (leadsTo_eat hcomma))
    rw [roots_declarators_cons]
    exact (ihi.append hmore).sooner (leadsTo_binding hname)
  | declare htake _ ih =>
    rw [roots_stmt, Stmt.roots]
    exact ih.sooner (leadsTo_take htake)
  | block hopen _ hclose ih =>
    rw [roots_stmt, Stmt.roots]
    exact (ih.sooner (leadsTo_eat hopen)).later (leadsTo_closing hclose)
  | @expr s t e he =>
    rw [roots_stmt, Stmt.roots]
    exact he.lays.later t.leadsTo_eatSemicolon
  | stmt _ _ ihone ihmore =>
    rw [roots_stmt] at ihone
    exact ihone.append ihmore
  | @recovery s t u more _ _ ihnone ihmore =>
    exact ihmore.sooner (ihnone.leadsTo.trans t.leadsTo_toStatement)
  | noValue heq => exact .nothing (ReadsStmt.noValue heq).leadsTo
  | noName kind hname => exact .nothing (ReadsStmt.noName kind hname).leadsTo
  | importDecl hword hdecl hnext => exact .nothing (ReadsStmt.importDecl hword hdecl hnext).leadsTo
  | noImport hword hdecl => exact .nothing (ReadsStmt.noImport hword hdecl).leadsTo
  | empty hsemicolon => exact .nothing (ReadsStmt.empty hsemicolon).leadsTo
  | strayBrace s => exact .nothing (ReadsStmt.strayBrace s).leadsTo
  | noExpr he => exact .nothing (ReadsStmt.noExpr he).leadsTo
  | bodyEnd s => exact .nothing (ReadsStmt.bodyEnd s).leadsTo

/-- The statement runs from the next token to the token read last, and its expressions were read in
between. -/
theorem encloses_of_laid {s t : Cursor} {one : Stmt} (hspan : one.span = s.span.cover t.last)
    (hs : s.Steady) (h : AllLaid s t one.roots) : one.Encloses := by
  intro root hroot hintact e he
  rw [hspan]
  exact (h root hroot hintact e he).1.in_cover hs

/-- Statements enclose their expressions. -/
theorem ReadsStmt.encloses {s t : Cursor} {r : StmtReading} (h : ReadsStmt s r t) (hs : s.Steady) :
    ∀ one ∈ r.inner, one.Encloses := by
  -- What was read as a statement has its expressions from its own reading.
  have hown {s t : Cursor} {one : Stmt} (h : ReadsStmt s (.stmt (some one)) t) (hs : s.Steady)
      (hspan : one.span = s.span.cover t.last) : one.Encloses :=
    encloses_of_laid hspan hs (roots_stmt one ▸ h.lays.laid hs)
  induction h with
  | noValue _ => exact fun one hone => absurd hone List.not_mem_nil
  | value _ _ => exact fun one hone => absurd hone List.not_mem_nil
  | noName kind _ => exact fun one hone => absurd hone List.not_mem_nil
  | lastDeclarator _ _ _ => exact fun one hone => absurd hone List.not_mem_nil
  | declarator _ _ _ _ _ _ => exact fun one hone => absurd hone List.not_mem_nil
  | importDecl hword hdecl hnext =>
    exact List.forall_mem_singleton.2 (hown (.importDecl hword hdecl hnext) hs rfl)
  | noImport _ _ => exact fun one hone => absurd hone List.not_mem_nil
  | declare htake hds _ => exact List.forall_mem_singleton.2 (hown (.declare htake hds) hs rfl)
  | @block s t u v _ stmts hopen hbody hclose ih =>
    have hst := leadsTo_eat hopen
    intro one hone
    simp only [StmtReading.inner, Option.toList_some, List.flatMap_singleton, Stmt.inner] at hone
    rcases List.mem_cons.1 hone with rfl | hone
    · exact hown (.block hopen hbody hclose) hs rfl
    · exact ih (hst.steady hs) one hone
  | empty hsemicolon => exact List.forall_mem_singleton.2 (hown (.empty hsemicolon) hs rfl)
  | strayBrace s => exact fun one hone => absurd hone List.not_mem_nil
  | expr he => exact List.forall_mem_singleton.2 (hown (.expr he) hs rfl)
  | noExpr _ => exact fun one hone => absurd hone List.not_mem_nil
  | bodyEnd s => exact fun one hone => absurd hone List.not_mem_nil
  | @stmt s t u one more hone hmore ihone ihmore =>
    intro d hd
    rcases List.mem_append.1 hd with hd | hd
    · exact ihone hs d (by simpa [StmtReading.inner] using hd)
    · exact ihmore (hone.leadsTo.steady hs) d hd
  | @recovery s t u more hnone hmore _ ihmore =>
    have hst := hnone.leadsTo.trans t.leadsTo_toStatement
    exact ihmore (hst.steady hs)

/-! ## Sources -/

/-- From the start of one word of a text to the end of another one. -/
theorem cutsOut_of_words {a b c : Span} {offset : Nat} {text : List Char}
    (ha : a.CutsOut offset text) (hb : b.CutsOut offset text) (hstart : a.start = c.start)
    (hstop : b.stop = c.stop) (h : c.start < c.stop) : c.CutsOut offset text := by
  obtain ⟨before, first, after, htext, -, hfirst, -⟩ := ha
  obtain ⟨front, last, rest, htext', -, -, hlast⟩ := hb
  have hprefix : before <+: text := ⟨first ++ after, htext.symm⟩
  have hprefix' : front ++ last <+: text := ⟨rest, by rw [htext', List.append_assoc]⟩
  rcases List.prefix_or_prefix_of_prefix hprefix hprefix' with ⟨word, hword⟩ | ⟨more, hmore⟩
  · refine ⟨before, word, rest, ?_, ?_, ?_, ?_⟩
    · rw [htext', ← List.append_assoc, ← List.append_assoc, hword]
    · rintro rfl
      rw [List.append_nil] at hword
      rw [hword] at hfirst
      omega
    · rw [← hstart, hfirst]
    · rw [← hstop, hlast, hword]
  · rw [← hmore, byteLength_append] at hfirst
    omega

theorem steady_ofTokens (source : String) (firstId : NodeId) :
    (ofTokens (tokenize source).tokens firstId).Steady ∧
      ∀ k ∈ (ofTokens (tokenize source).tokens firstId).rest, k.span.CutsOut 0 source.toList := by
  obtain ⟨words, heq, hwords, hordered⟩ := (tiles_place 0 source.toList).tokens_eq
  have htokens : (tokenize source).tokens = words ++ [⟨.eof, _⟩] := heq
  rw [htokens, ofTokens_words fun t ht => (hwords t ht).1]
  refine ⟨⟨fun k hk => ?_, hordered, fun k _ => Nat.zero_le _⟩, fun k hk => (hwords k hk).2⟩
  exact (hwords k hk).2.start_lt_stop

end Grammar

/-- The node has a text in the source, in which its children have theirs. -/
structure Expr.SpannedIn (source : String) (e : Expr) : Prop where
  nonempty : e.span.isEmpty = false
  cutsOut : e.span.CutsOut 0 source.toList
  children : ∀ c ∈ e.children, e.span.contains c.span = true

namespace Grammar

open ScriptFold.Expr

theorem spannedIn_of_laid {source : String} {firstId : NodeId} {t : Cursor} {root e : Expr}
    (h : root.Laid (ofTokens (tokenize source).tokens firstId) t) (he : e ∈ root.nodes) :
    e.SpannedIn source := by
  obtain ⟨hbetween, hchildren⟩ := h e (mem_nodes_iff.1 he)
  obtain ⟨-, hcuts⟩ := steady_ofTokens source firstId
  obtain ⟨k, hk, hstart⟩ := hbetween.start
  obtain ⟨l, hl, hstop⟩ := hbetween.stop
  have hnonempty := hbetween.nonempty
  refine ⟨?_, cutsOut_of_words (hcuts k hk) (hcuts l hl) hstart hstop hnonempty, hchildren⟩
  simpa [Span.isEmpty] using hnonempty

/-- **Spans nest.** In a source that is read without a diagnostic every node has a span that is not
empty and cuts out characters of the source, and that contains the spans of the children of the
node. The span of every statement, also in a block, contains the spans of all nodes of its
expressions. -/
theorem spans_nest (source : String) (firstId : NodeId) :
    ((parseProgram source).diagnostics = [] →
      (∀ e ∈ (parseProgram source).value.nodes, e.SpannedIn source) ∧
      ∀ s ∈ Stmt.innerAll (parseProgram source).value.body, ∀ root ∈ s.roots, ∀ e ∈ root.nodes,
        s.span.contains e.span = true) ∧
    ((parseExpression source firstId).diagnostics = [] →
      ∀ e ∈ (parseExpression source firstId).value.nodes, e.SpannedIn source) := by
  constructor
  · intro h
    obtain ⟨-, hclean⟩ := List.append_eq_nil_iff.1 h
    obtain ⟨hsteady, -⟩ := steady_ofTokens source 0
    have hreads := statements_reads false (ofTokens (tokenize source).tokens 0)
    have hintact (root : Expr) (hroot : root ∈ (parseProgram source).value.roots) :
        root.Intact :=
      intact_of_wellFormed (Stmt.AllWellFormed.roots _ (hreads.fits hclean) root hroot)
    constructor
    · intro e he
      rw [Program.nodes_eq] at he
      obtain ⟨root, hroot, hnode⟩ := List.mem_flatMap.1 he
      exact spannedIn_of_laid (hreads.lays.laid hsteady root hroot (hintact root hroot)) hnode
    · intro s hs root hroot e he
      have hlisted := Stmt.rootsAll_of_innerAll _ s hs hroot
      exact hreads.encloses hsteady s hs root hroot (hintact root hlisted) e (mem_nodes_iff.1 he)
  · intro h e he
    obtain ⟨-, hclean⟩ := List.append_eq_nil_iff.1 h
    obtain ⟨hsteady, -⟩ := steady_ofTokens source firstId
    obtain ⟨passed, semicolon, -, hderives, -⟩ := wholeExpression_derives hclean
    have hreads := expression_reads (ofTokens (tokenize source).tokens firstId)
    have hvalue : (wholeExpression (ofTokens (tokenize source).tokens firstId)).value =
        (expression (ofTokens (tokenize source).tokens firstId)).value := by
      rw [wholeExpression]
      dsimp only
      split <;> rfl
    have hwhole : (parseExpression source firstId).value =
        (expression (ofTokens (tokenize source).tokens firstId)).value := hvalue
    rw [hwhole] at he
    have hlaid := hreads.lays.only hsteady (intact_of_wellFormed (hvalue ▸ hderives.fits))
    exact spannedIn_of_laid hlaid he

/-- Parentheses around an operand, an argument and a key, a hole, a shorthand, and statements in a
block. -/
theorem spans_nest_parenthesized :
    let source := "{ const é = (f)?.((a, b))[(0)]; x = [, ...{ é, void: -(1) }] } (y)"
    (parseProgram source).diagnostics = [] ∧
      ∀ e ∈ (parseProgram source).value.nodes, e.SpannedIn source := by
  intro source
  have hclean : (parseProgram source).diagnostics = [] := by decide +kernel
  exact ⟨hclean, ((spans_nest source 0).1 hclean).1⟩

end Grammar

end ScriptFold
