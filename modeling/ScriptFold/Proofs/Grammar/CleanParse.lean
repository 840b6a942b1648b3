import Mathlib.Data.List.Forall2
import ScriptFold.Proofs.Grammar.Fitting
import ScriptFold.Proofs.Grammar.Progress

/-!
What is read without a complaint.

Such a tree is well formed, and each word of the text stands in it, once and in the order of the
text. Both are proved by induction on the derivation of the tree.
-/

namespace ScriptFold.Grammar

open Cursor ScriptFold.Expr

/-! ## Words -/

def Reading.words : Reading → List Word
  | expr e => e.words
  | operands es => wordsAll es
  | elements es => wordsElements es
  | item _ found => (found.map Expr.words).getD []
  | items _ es => wordsAll es

/-- The words are the word tokens among some tokens, in order. -/
def Covered (ws : List Word) (passed : List Token) : Prop :=
  List.Forall₂ Word.Covers ws (passed.filter Token.isWord)

theorem Covered.append {ws vs : List Word} {passed more : List Token} (h₁ : Covered ws passed)
    (h₂ : Covered vs more) : Covered (ws ++ vs) (passed ++ more) := by
  rw [Covered, List.filter_append]
  exact List.rel_append h₁ h₂

theorem covered_marks {passed : List Token} (h : ∀ t ∈ passed, t.isWord = false) :
    Covered [] passed := by
  rw [Covered, List.filter_eq_nil_iff.2 fun t ht => by simp [h t ht]]
  exact .nil

theorem covered_mark {t : Token} {m : Mark} (h : t.kind = .mark m) : Covered [] [t] :=
  covered_marks fun u hu => by rw [List.mem_singleton.1 hu, Token.isWord, h]

theorem covered_word {w : Word} {t : Token} (hword : t.isWord) (h : w.Covers t) :
    Covered [w] [t] := by
  rw [Covered, List.filter_cons_of_pos hword]
  exact .cons h .nil

theorem covered_leaf {e : Expr} {t : Token} (h : e.IsReadAs t.kind) (hspan : e.span = t.span) :
    Covered [.leaf e] [t] := by
  refine covered_word ?_ ⟨h, hspan⟩
  unfold Token.isWord
  split
  · rename_i hkind
    rw [hkind] at h
    cases e <;> cases h
  · rename_i hkind
    rw [hkind] at h
    cases e <;> cases h
  · rfl

theorem isWord_of_link? {t : Token} (h : (link? t.kind).isSome) : t.isWord = false := by
  unfold Token.isWord
  cases hkind : t.kind <;> rw [hkind] at h <;> first | rfl | cases h

theorem isWord_of_connective? {t : Token} {found : Nat × Connective}
    (h : connective? t.kind = some found) : t.isWord = false := by
  unfold Token.isWord
  cases hkind : t.kind <;> rw [hkind] at h <;> first | rfl | cases h

theorem isWord_of_assignOp? {t : Token} {op : AssignOp} (h : assignOp? t.kind = some op) :
    t.isWord = false := by
  unfold Token.isWord
  cases hkind : t.kind <;> rw [hkind] at h <;> first | rfl | cases h

theorem covered_unaryOp {t : Token} {op : UnaryOp} (h : unaryOp? t.kind = some op) :
    Covered (if op.keyword?.isSome then [.operator op] else []) [t] := by
  obtain ⟨kind, span⟩ := t
  cases kind with
  | mark m =>
    have hmark : Covered [] [⟨.mark m, span⟩] := covered_mark rfl
    cases m <;> cases h <;> exact hmark
  | keyword w => cases w <;> cases h <;> exact covered_word rfl rfl
  | number x => cases h
  | string x => cases h
  | ident x => cases h
  | eof => cases h
  | error => cases h

/-- The words of what was derived are the word tokens that it was derived by. -/
theorem Derives.covered {r : Reading} {passed : List Token} (h : Derives r passed) :
    Covered r.words passed := by
  induction h with
  | @atom make n k hk hn =>
    obtain ⟨-, -, hwords, hread, hspan⟩ := atom?_spec hk n
    rw [Reading.words, hwords]
    exact covered_leaf hread (hspan.trans hn)
  | group hopening _ hclosing ih =>
    simpa using ((covered_mark hopening).append ih).append (covered_mark hclosing)
  | array n hopening _ hclosing ih =>
    simpa [Reading.words, words] using
      ((covered_mark hopening).append ih).append (covered_mark hclosing)
  | object n hopening _ hclosing ih =>
    simpa [Reading.words, words] using
      ((covered_mark hopening).append ih).append (covered_mark hclosing)
  | unary n hk _ ih => exact (covered_unaryOp hk).append ih
  | @connective n level op l r k left right _ hk _ ihl ihr =>
    have hmark : Covered [] [k] := covered_marks (by simpa using isWord_of_connective? hk)
    have hall := (ihl.append hmark).append ihr
    rw [List.append_nil] at hall
    cases op <;> exact hall
  | conditional n _ hquestion _ hcolon _ iht ihc iha =>
    have hall := (((iht.append (covered_mark hquestion)).append ihc).append
      (covered_mark hcolon)).append iha
    rwa [List.append_nil, List.append_nil] at hall
  | @assign n op target value k left right _ _ hk _ iht ihv =>
    have hmark : Covered [] [k] := covered_marks (by simpa using isWord_of_assignOp? hk)
    have hall := (iht.append hmark).append ihv
    rwa [List.append_nil] at hall
  | sequence n _ _ ihf ihm => exact ihf.append ihm
  | operandsEnd => exact List.Forall₂.nil
  | operand hcomma _ _ ihe ihm => exact ((covered_mark hcomma).append ihe).append ihm
  | @named n e m x optional link name passed _ hlink hname hm ih =>
    have hmark : Covered [] [link] := covered_marks (by simpa using isWord_of_link? hlink)
    have hleaf : Covered [.leaf (.ident m x)] [name] := covered_leaf hname hm
    have hall := (ih.append hmark).append hleaf
    rwa [List.append_nil] at hall
  | index n _ hopening _ hclosing ihe ihk =>
    have hlinks := covered_marks fun t ht => isWord_of_link? (hopening t ht)
    have hall := ((ihe.append hlinks).append ihk).append (covered_mark hclosing)
    rwa [List.append_nil, List.append_nil] at hall
  | call n _ hopening _ hclosing ihf ihx =>
    have hlinks := covered_marks fun t ht => isWord_of_link? (hopening t ht)
    have hall := ((ihf.append hlinks).append ihx).append (covered_mark hclosing)
    rwa [List.append_nil, List.append_nil] at hall
  | elementsEnd => exact List.Forall₂.nil
  | hole hcomma _ ih => exact (covered_mark hcomma).append ih
  | lastElement _ ih => simpa [Reading.words, wordsElements] using ih
  | element _ hcomma _ ihe ihm =>
    have hall := (ihe.append (covered_mark hcomma)).append ihm
    rwa [List.append_nil] at hall
  | plain _ ih => exact ih
  | spread n hk _ ih => exact (covered_mark hk).append ih
  | @property n make short m value key colon passed hkey hm hcolon _ ih =>
    obtain ⟨-, -, hwords, hread, hspan⟩ := plainKey?_spec hkey m
    have hall := ((covered_leaf hread (hspan.trans hm)).append (covered_mark hcolon)).append ih
    rwa [List.append_nil, ← hwords] at hall
  | @shorthand n x m l key hkey hm _ =>
    have hleaf : Covered [.leaf (.ident m x)] [key] := covered_leaf hkey hm
    exact hleaf
  | computed n hopening _ hclosing hcolon _ ihk ihv =>
    have hall := ((((covered_mark hopening).append ihk).append (covered_mark hclosing)).append
      (covered_mark hcolon)).append ihv
    rwa [List.nil_append, List.append_nil, List.append_nil] at hall
  | itemsEnd => exact List.Forall₂.nil
  | lastItem _ ih => simpa [Reading.words, wordsAll] using ih
  | item _ hcomma _ ihe ihm =>
    have hall := (ihe.append (covered_mark hcomma)).append ihm
    rwa [List.append_nil] at hall

/-! ## Sources -/

theorem wholeExpression_derives {s : Cursor} (hclean : s.Clean (wholeExpression s).next) :
    ∃ passed semicolon, s.rest = passed ++ semicolon ∧
      Derives (.expr (wholeExpression s).value) passed ∧
      ∀ t ∈ semicolon, t.kind = .mark .semicolon := by
  have hreads := expression_reads s
  unfold wholeExpression at hclean ⊢
  generalize expression s = p at hreads hclean ⊢
  obtain ⟨e, t, ht⟩ := p
  obtain ⟨passed, hmoves, hderives⟩ := hreads.spells
  obtain ⟨semicolon, hsemicolon, hclean₁, hkinds⟩ := t.moves_eatSemicolon
  dsimp only at hmoves hderives hclean ⊢
  split at hclean
  · rename_i hend
    rw [if_pos hend]
    have hrest : t.eatSemicolon.rest = [] := List.isEmpty_iff.1 hend
    obtain ⟨hclean₂, -⟩ := hclean.split hmoves.diagnostics hsemicolon.diagnostics
    refine ⟨passed, semicolon, ?_, hderives hclean₂, hkinds⟩
    rw [hmoves.rest, hsemicolon.rest, hrest, List.append_nil]
  · obtain ⟨-, hcomplains⟩ := hclean.split (hmoves.trans hsemicolon).diagnostics
      (Cursor.moves_complain _ _).diagnostics
    exact absurd hcomplains (not_clean_of_report List.prefix_rfl)

/-- **A source that is read without a diagnostic gives a well-formed tree that has lost nothing.**
There is no invalid node; properties and spreads stand where the grammar allows them; a sequence
has two members at least; what is assigned to may be assigned to; constants have values; and a
property that is written as one name has two nodes of that name. The names and literals of a source
that is one expression are the leaves of its tree, in order; the other words are its operators. -/
theorem parse_well_formed (source : String) (firstId : NodeId) :
    ((parseProgram source).diagnostics = [] →
      Stmt.AllWellFormed (parseProgram source).value.body) ∧
    ((parseExpression source firstId).diagnostics = [] →
      (parseExpression source firstId).value.WellFormed ∧
      List.Forall₂ Word.Covers (parseExpression source firstId).value.words
        ((tokenize source).tokens.filter Token.isWord)) := by
  constructor
  · intro h
    obtain ⟨-, hclean⟩ := List.append_eq_nil_iff.1 h
    exact (statements_reads false _).fits hclean
  · intro h
    obtain ⟨-, hclean⟩ := List.append_eq_nil_iff.1 h
    obtain ⟨passed, semicolon, hrest, hderives, hkinds⟩ := wholeExpression_derives hclean
    refine ⟨hderives.fits, ?_⟩
    have hahead := (standsAt_ofTokens (endsOnce_tokenize source) firstId).ahead
    have hend : Covered [] [⟨.eof, (Cursor.ofTokens (tokenize source).tokens firstId).finish⟩] :=
      covered_marks (by simp [Token.isWord])
    have hsemicolon : Covered [] semicolon :=
      covered_marks fun t ht => by rw [Token.isWord, hkinds t ht]
    have hall := (hderives.covered.append hsemicolon).append hend
    rw [List.append_nil, List.append_nil, ← hrest, ← hahead, List.drop_zero] at hall
    exact hall

/-- An object with a shorthand, an operator that is a word, and a hole. -/
theorem parse_well_formed_object :
    (parseExpression "{ a, void: void [b.typeof, , -1] };" 0).diagnostics = [] ∧
      (parseExpression "{ a, void: void [b.typeof, , -1] };" 0).value.WellFormed := by
  have hclean : (parseExpression "{ a, void: void [b.typeof, , -1] };" 0).diagnostics = [] := by
    decide +kernel
  exact ⟨hclean, ((parse_well_formed "{ a, void: void [b.typeof, , -1] };" 0).2 hclean).1⟩

end ScriptFold.Grammar
