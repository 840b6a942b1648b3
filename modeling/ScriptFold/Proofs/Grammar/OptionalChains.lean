import ScriptFold.Proofs.Grammar.Inversion

/-!
Optional chains and their words.

Links after an expression are an optional chain if the first of them is marked as optional. The mark
counts for all links after it as well, up to the end of the chain or a closing parenthesis.
-/

namespace ScriptFold

/-- A link to a member: a name after a dot, or an expression in brackets. -/
structure ChainLink where
  node : Node
  key : Expr
  computed : Bool

namespace ChainLink

def bare (l : ChainLink) : ChainLink := ⟨default, l.key.bare, l.computed⟩

/-- The link is one that the grammar can express. -/
def Grammatical (l : ChainLink) : Prop :=
  if l.computed then l.key.Grammatical else l.key.name?.isSome

def words (y : Style) (l : ChainLink) (marked : Bool) : List TokenKind :=
  if l.computed then
    (if marked then [.mark .questionDot] else []) ++
      ([.mark .lbracket] ++ (l.key.spelled y ++ [.mark .rbracket]))
  else [.mark (if marked then .questionDot else .dot)] ++ l.key.spelled y

theorem eof_notMem_words (y : Style) (l : ChainLink) (marked : Bool) : .eof ∉ l.words y marked := by
  unfold words
  split
  · cases marked <;> simp [Expr.eof_notMem_spelled y l.key]
  · simp [Expr.eof_notMem_spelled y l.key]

end ChainLink

namespace Expr

/-- The expression with optional links after it; the last link comes first in the list. -/
def chain (b : Expr) : List ChainLink → Expr
  | [] => b
  | l :: inner => .member l.node (b.chain inner) l.key l.computed true

/-- The tokens of an optional chain. The first link is marked as optional. Each link after it may be
marked again, which is said beside the link. -/
def chainWords (y : Style) (b : Expr) : List (ChainLink × Bool) → List TokenKind
  | [] => bracketed (b.parenthesized true) (b.spelled y)
  | (l, again) :: inner => b.chainWords y inner ++ l.words y (inner.isEmpty || again)

variable {y : Style} {b e : Expr}

theorem eof_notMem_chainWords (links : List (ChainLink × Bool)) : .eof ∉ b.chainWords y links := by
  induction links with
  | nil => simp [chainWords, eof_notMem_spelled y b]
  | cons l inner ih => simp [chainWords, ih, l.1.eof_notMem_words y]

/-- The expression is a chain, and all its links are optional; the expression before them and the
links are `b` and `links` up to identities and spans. -/
def IsChain (e b : Expr) (links : List ChainLink) : Prop :=
  ∃ (b' : Expr) (links' : List ChainLink), e = b'.chain links' ∧ b'.bare = b.bare ∧
    links'.map ChainLink.bare = links.map ChainLink.bare

theorem isChain_of_bare {links : List ChainLink} (h : e.bare = (b.chain links).bare) :
    e.IsChain b links := by
  induction links generalizing e with
  | nil => exact ⟨e, [], rfl, h, rfl⟩
  | cons l inner ih =>
    cases e with
    | member n o key computed optional =>
      obtain ⟨-, ho, hkey, rfl, rfl⟩ := member.inj h
      obtain ⟨b', links', rfl, hb, hlinks⟩ := ih ho
      refine ⟨b', ⟨n, key, l.computed⟩ :: links', rfl, hb, ?_⟩
      simp [ChainLink.bare, hkey, hlinks]
    | _ => cases h

end Expr

namespace Grammar

open ScriptFold.Expr

variable {y : Style} {b o : Expr} {l : ChainLink} {ws : List TokenKind} {chained marked : Bool}

theorem ReadsChain.chainLink (h : ReadsChain chained ws o.bare) (hflag : (chained || marked) = true)
    (hl : l.Grammatical) : ReadsChain true (ws ++ l.words y marked)
      (member l.node o l.key l.computed true).bare := by
  obtain ⟨node, key, computed⟩ := l
  cases computed with
  | true => exact h.index hflag (inverts y key hl)
  | false =>
    obtain ⟨x, hx⟩ := Option.isSome_iff_exists.1 hl
    obtain ⟨m, rfl⟩ := exists_ident_of_name? hx
    exact h.named hflag x

/-- The words of an optional chain are read as links all of which are optional. -/
theorem readsChain_chainWords (hb : b.Grammatical) {links : List (ChainLink × Bool)}
    (hlinks : ∀ l ∈ links, l.1.Grammatical) (hne : links ≠ []) :
    ReadsChain true (b.chainWords y links) (b.chain (links.map Prod.fst)).bare := by
  induction links with
  | nil => exact absurd rfl hne
  | cons l inner ih =>
    have hl := hlinks l List.mem_cons_self
    cases inner with
    | nil => exact ((inverts y b hb).reads.at_chain true).chainLink (Bool.or_true _) hl
    | cons l' inner =>
      exact (ih (fun l'' h => hlinks l'' (List.mem_cons_of_mem l h)) (by simp)).chainLink rfl hl

section Whole

variable {links : List (ChainLink × Bool)} {tokens : List Token}

theorem wholeExpression_chain (hb : b.Grammatical) (hlinks : ∀ l ∈ links, l.1.Grammatical)
    (hne : links ≠ []) (htokens : tokens.map Token.kind = b.chainWords y links ++ [.eof])
    (firstId : NodeId) :
    (wholeExpression (.ofTokens tokens firstId)).value.IsChain b (links.map Prod.fst) ∧
      (wholeExpression (.ofTokens tokens firstId)).next.diagnostics = [] := by
  have hchain := readsChain_chainWords (y := y) hb hlinks hne
  obtain ⟨hvalue, hreach⟩ :=
    hchain.expression.gets (eof_notMem_chainWords links) htokens firstId
  exact ⟨isChain_of_bare hvalue, hreach.diagnostics⟩

theorem wholeExpression_member_of_chain (hb : b.Grammatical)
    (hlinks : ∀ l ∈ links, l.1.Grammatical) (hne : links ≠ []) {x : String}
    (htokens : tokens.map Token.kind = [.mark .lparen] ++ b.chainWords y links ++ [.mark .rparen] ++
      [.mark .dot, .ofWord x] ++ [.eof]) (firstId : NodeId) :
    (∃ n o m, (wholeExpression (.ofTokens tokens firstId)).value =
        member n o (ident m x) false false ∧ o.IsChain b (links.map Prod.fst)) ∧
      (wholeExpression (.ofTokens tokens firstId)).next.diagnostics = [] := by
  have hgroup := (readsChain_chainWords (y := y) hb hlinks hne).expression.group
  have heof : .eof ∉ [.mark .lparen] ++ b.chainWords y links ++ [.mark .rparen] ++
      [.mark .dot, .ofWord x] := by
    simp [eof_notMem_chainWords links, (TokenKind.ofWord_ne_eof x).symm]
  have hplain : (false || false) = false := rfl
  obtain ⟨hvalue, hreach⟩ := (hgroup.named hplain x).expression.gets heof htokens firstId
  refine ⟨?_, hreach.diagnostics⟩
  generalize (wholeExpression (.ofTokens tokens firstId)).value = e at hvalue
  cases e with
  | member n o key computed optional =>
    obtain ⟨-, ho, hkey, rfl, rfl⟩ := member.inj hvalue
    cases key with
    | ident m x' =>
      obtain ⟨-, rfl⟩ := ident.inj hkey
      exact ⟨n, o, m, rfl, isChain_of_bare ho⟩
    | _ => cases hkey
  | _ => cases hvalue

end Whole

end Grammar

end ScriptFold
