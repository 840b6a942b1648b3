import ScriptFold.Proofs.Grammar.Loops
import ScriptFold.Proofs.Lexeme.Tiling

/-!
Reading is total.

A cursor is seen as a position in the tokens, which end in their only end token. Every reader takes
a position to a position that is no smaller, and no position lies past the end; so the token at a
position and the one before it are always there. The loops all come to an end, and a program is
read up to the end token.
-/

namespace ScriptFold.Grammar

open Cursor

/-! ## Positions -/

/-- The tokens end in an end token, and there is no other. -/
def EndsOnce (tokens : List Token) : Prop :=
  ∃ words finish, tokens = words ++ [⟨.eof, finish⟩] ∧ ∀ t ∈ words, t.kind ≠ .eof

theorem endsOnce_tokenize (source : String) : EndsOnce (tokenize source).tokens := by
  obtain ⟨words, heq, hwords, -⟩ := (tiles_place 0 source.toList).tokens_eq
  exact ⟨words, _, heq, fun t ht => (hwords t ht).1⟩

/-- The cursor stands at a position of the tokens. The token there and the token before it, if the
position is not the first, are those that the cursor sees. -/
structure StandsAt (tokens : List Token) (position : Nat) (s : Cursor) : Prop where
  inBounds : position < tokens.length
  ahead : tokens.drop position = s.rest ++ [⟨.eof, s.finish⟩]
  current : tokens[position] = ⟨s.kind, s.span⟩
  first : position = 0 → s.last = .nowhere
  previous : ∀ h : 0 < position, (tokens[position - 1]).span = s.last

section Positions

variable {tokens passed : List Token} {position : Nat} {s t : Cursor}

theorem StandsAt.of_ahead (hahead : tokens.drop position = s.rest ++ [⟨.eof, s.finish⟩])
    (hlast : s.last = ((tokens.take position).getLast?.map Token.span).getD .nowhere) :
    StandsAt tokens position s := by
  have hlt : position < tokens.length := by
    have hlength := congrArg List.length hahead
    rw [List.length_drop, List.length_append, List.length_singleton] at hlength
    omega
  refine ⟨hlt, hahead, ?_, ?_, ?_⟩
  · have hhead := List.drop_eq_getElem_cons hlt
    rw [hahead] at hhead
    unfold kind span
    cases hrest : s.rest with
    | nil =>
      rw [hrest] at hhead
      exact (List.cons.inj hhead).1.symm
    | cons token rest =>
      rw [hrest] at hhead
      exact (List.cons.inj hhead).1.symm
  · rintro rfl
    rw [hlast, List.take_zero]
    rfl
  · intro h
    rw [hlast, List.getLast?_take, if_neg (by omega), List.getElem?_eq_getElem (by omega)]
    rfl

theorem StandsAt.last_eq (h : StandsAt tokens position s) :
    s.last = ((tokens.take position).getLast?.map Token.span).getD .nowhere := by
  have hlt := h.inBounds
  by_cases hposition : position = 0
  · rw [h.first hposition, hposition, List.take_zero]
    rfl
  · rw [← h.previous (by omega), List.getLast?_take, if_neg hposition,
      List.getElem?_eq_getElem (by omega)]
    rfl

theorem StandsAt.moves (h : StandsAt tokens position s) (hmoves : s.Moves passed t) :
    StandsAt tokens (position + passed.length) t := by
  have hahead : tokens.drop position = passed ++ (t.rest ++ [⟨.eof, t.finish⟩]) := by
    rw [h.ahead, hmoves.rest, hmoves.finish, List.append_assoc]
  refine .of_ahead ?_ ?_
  · rw [← List.drop_drop, hahead, List.drop_left]
  · rw [List.take_add, hahead, List.take_left, hmoves.last, h.last_eq, List.getLast?_append]
    cases passed.getLast? <;> rfl

/-- The start of tokens that end in their only end token. -/
theorem ofTokens_words {words : List Token} {finish : Span} (h : ∀ t ∈ words, t.kind ≠ .eof)
    (firstId : NodeId) : ofTokens (words ++ [⟨.eof, finish⟩]) firstId =
      ⟨words, finish, .nowhere, firstId, []⟩ := by
  have hrest : (words ++ [(⟨.eof, finish⟩ : Token)]).takeWhile (fun t => t.kind ≠ .eof) = words := by
    rw [List.takeWhile_append_of_pos (by simpa using h), List.takeWhile_cons_of_neg (by simp),
      List.append_nil]
  rw [ofTokens, hrest, List.drop_left]
  rfl

theorem standsAt_ofTokens (h : EndsOnce tokens) (firstId : NodeId) :
    StandsAt tokens 0 (.ofTokens tokens firstId) := by
  obtain ⟨words, finish, rfl, hwords⟩ := h
  rw [ofTokens_words hwords]
  exact .of_ahead rfl rfl

end Positions

/-! ## Readers -/

/-- Where reading goes on after a token that a test accepts, and the same place if the test does
not accept the next token. -/
def past {β : Type} (test : TokenKind → Option β) (s : Cursor) : Cursor :=
  match s.take test with
  | some (_, _, ⟨t, _⟩) => t
  | none => s

/-- All steps of cursors, readers of expressions and readers of statements: where they go on. -/
inductive Reader : (Cursor → Cursor) → Prop
  | take {β : Type} (test : TokenKind → Option β) : Reader (past test)
  | advance : Reader advance
  | skip (n : Nat) : Reader (skip n)
  | report (d : Diagnostic) : Reader (report d)
  | node (span : Span) : Reader fun s => (s.node span).2
  | toStatement : Reader toStatement
  | eatSemicolon : Reader eatSemicolon
  | closing (d : Delimiter) (opened : Span) : Reader fun s => (s.closing d opened).next
  | expect (wanted : TokenKind) : Reader fun s => (s.expect wanted).next
  | expectBinding : Reader fun s => s.expectBinding.next
  | memberName : Reader fun s => (memberName s).next
  | noExpression : Reader fun s => (noExpression s).next
  | checkTarget (target : Expr) : Reader (checkTarget target)
  | expression : Reader fun s => (expression s).next
  | commaOperands : Reader fun s => (commaOperands s).next
  | assignment : Reader fun s => (assignment s).next
  | conditional : Reader fun s => (conditional s).next
  | infixLevel (least : Nat) : Reader fun s => (infixLevel least s).next
  | infixTail (least : Nat) (left : Expr) : Reader fun s => (infixTail least left s).next
  | unary : Reader fun s => (unary s).next
  | links (e : Expr) (chained : Bool) : Reader fun s => (links e chained s).next
  | computedKey (opened : Span) : Reader fun s => (computedKey opened s).next
  | arguments (opened : Span) : Reader fun s => (arguments opened s).next
  | element : Reader fun s => (element s).next
  | primary : Reader fun s => (primary s).next
  | elements : Reader fun s => (elements s).next
  | objectMember : Reader fun s => (objectMember s).next
  | propertyValue (start : Span) (key : Expr) (computed : Bool) (short : Option String) :
    Reader fun s => (propertyValue start key computed short s).next
  | importSpecifier : Reader fun s => (importSpecifier s).next
  | importSource (specifiers : List ImportSpecifier) :
    Reader fun s => (importSource specifiers s).next
  | importGroup (specifiers : List ImportSpecifier) : Reader fun s => (importGroup specifiers s).next
  | importRest : Reader fun s => (importRest s).next
  | initializer : Reader fun s => (initializer s).next
  | checkInitializer (kind : VarKind) (name : Name) (init : Option Expr) :
    Reader (checkInitializer kind name init)
  | declarators (kind : VarKind) : Reader fun s => (declarators kind s).next
  | expressionStatement : Reader fun s => (expressionStatement s).next
  | statement : Reader fun s => (statement s).next
  | statements (inBlock : Bool) : Reader fun s => (statements inBlock s).next

theorem leadsTo_propertyValue (start : Span) (key : Expr) (computed : Bool) (short : Option String)
    (s : Cursor) : s.LeadsTo (propertyValue start key computed short s).next := by
  rw [propertyValue.eq_def]
  split
  · rename_i t ht heat
    have hvalue := (leadsTo_eat heat).trans (assignment_reads t).leadsTo
    generalize assignment t = p at hvalue ⊢
    obtain ⟨value, u, hu⟩ := p
    exact hvalue.trans (u.moves_node (start.cover u.last)).leadsTo
  · cases short with
    | some name =>
      exact ((s.moves_node key.span).still (Cursor.moves_node _ (start.cover s.last))).leadsTo
    | none => exact (s.moves_complain _).leadsTo

theorem Reader.leadsTo {next : Cursor → Cursor} (h : Reader next) (s : Cursor) :
    s.LeadsTo (next s) := by
  cases h with
  | take test =>
    unfold past
    split
    · rename_i htake
      exact leadsTo_take htake
    · exact .refl s
  | advance => exact s.moves_advance.leadsTo
  | skip n => exact s.leadsTo_skip n
  | report d => exact (s.moves_report d).leadsTo
  | node span => exact (s.moves_node span).leadsTo
  | toStatement => exact s.leadsTo_toStatement
  | eatSemicolon => exact s.leadsTo_eatSemicolon
  | closing d opened => exact (s.spells_closing d opened).leadsTo
  | expect wanted => exact (s.spells_expect wanted).leadsTo
  | expectBinding => exact s.spells_expectBinding.leadsTo
  | memberName => exact (spells_memberName s).leadsTo
  | noExpression => exact (spells_noExpression s).leadsTo
  | checkTarget target => exact (spells_checkTarget target s).leadsTo
  | expression => exact (expression_reads s).leadsTo
  | commaOperands => exact (commaOperands_reads s).leadsTo
  | assignment => exact (assignment_reads s).leadsTo
  | conditional => exact (conditional_reads s).leadsTo
  | infixLevel least => exact (infixLevel_reads least s).leadsTo
  | infixTail least left => exact (runs_infixTail least (left, s)).leadsTo
  | unary => exact (unary_reads s).leadsTo
  | links e chained => exact (runs_links (e, chained, s)).leadsTo
  | computedKey opened => exact leadsTo_computedKey opened s
  | arguments opened => exact leadsTo_arguments opened s
  | element => exact (element_reads s).leadsTo
  | primary => exact (primary_reads s).leadsTo
  | elements => exact (elements_reads s).leadsTo
  | objectMember => exact (objectMember_reads s).leadsTo
  | propertyValue start key computed short => exact leadsTo_propertyValue start key computed short s
  | importSpecifier => exact leadsTo_importSpecifier s
  | importSource specifiers => exact (spells_importSource specifiers s).leadsTo
  | importGroup specifiers => exact (spells_importGroup specifiers s).leadsTo
  | importRest => exact (spells_importRest s).leadsTo
  | initializer => exact (initializer_reads s).leadsTo
  | checkInitializer kind name init => exact (spells_checkInitializer kind name init s).leadsTo
  | declarators kind => exact (declarators_reads kind s).leadsTo
  | expressionStatement => exact (expressionStatement_reads s).leadsTo
  | statement => exact (statement_reads s).leadsTo
  | statements inBlock => exact (statements_reads inBlock s).leadsTo

/-- No reader goes back or passes the end. -/
theorem Reader.standsAt {next : Cursor → Cursor} (h : Reader next) {tokens : List Token}
    {position : Nat} {s : Cursor} (hs : StandsAt tokens position s) :
    ∃ later, position ≤ later ∧ StandsAt tokens later (next s) := by
  obtain ⟨passed, hmoves⟩ := h.leadsTo s
  exact ⟨_, Nat.le_add_right _ _, hs.moves hmoves⟩

/-! ## All loops -/

/-- Every loop of reading comes to an end, from every state. -/
structure LoopsEnd : Prop where
  statements (inBlock : Bool) (x : List Stmt × Cursor) :
    Runs Prod.snd Prod.snd (statementRound inBlock) x (statementLoop inBlock x)
  declarators (kind : VarKind) (x : List Declarator × Cursor) :
    Runs Prod.snd Prod.snd (declaratorRound kind) x (declaratorLoop kind x)
  importSpecifiers (n : Nat) (x : List ImportSpecifier × { t : Cursor // t.left ≤ n }) :
    Runs (fun x => x.2.1) Prod.snd (commaRound .rbrace n fun t _ => importSpecifier t) x
      (commaLoop .rbrace n (fun t _ => importSpecifier t) x)
  arguments (n : Nat) (x : List Expr × { t : Cursor // t.left ≤ n }) :
    Runs (fun x => x.2.1) Prod.snd (commaRound .rparen n fun t _ => (element t).map some) x
      (commaLoop .rparen n (fun t _ => (element t).map some) x)
  members (n : Nat) (x : List Expr × { t : Cursor // t.left ≤ n }) :
    Runs (fun x => x.2.1) Prod.snd (commaRound .rbrace n fun t _ => objectMember t) x
      (commaLoop .rbrace n (fun t _ => objectMember t) x)
  elements (x : List (Option Expr) × Cursor) :
    Runs Prod.snd Prod.snd elementRound x (elementLoop x)
  commaOperands (x : List Expr × Cursor) : Runs Prod.snd Prod.snd operandRound x (operandLoop x)
  infixTail (least : Nat) (x : Expr × Cursor) :
    Runs Prod.snd Prod.snd (infixRound least) x (infixLoop least x)
  links (x : Expr × Bool × Cursor) : Runs (fun x => x.2.2) Prod.snd linkRound x (linkLoop x)
  statementSearch (x : Option Token × Cursor) :
    Runs Prod.snd (fun s => s) statementSearchRound x (statementSearchLoop x)
  closingSearch (d : Delimiter) (x : Nat × Cursor) :
    Runs Prod.snd (fun s => s) (closingSearchRound d) x (closingSearchLoop d x)
  commaSearch (closing : Mark) (s : Cursor) :
    Runs (fun s => s) (fun s => s) (commaSearchRound closing) s (commaSearchLoop closing s)

theorem loopsEnd : LoopsEnd where
  statements := runs_statements
  declarators := runs_declarators
  importSpecifiers n := runs_commaList .rbrace n fun t _ => leadsTo_importSpecifier t
  arguments n := runs_commaList .rparen n fun t _ => (element_reads t).leadsTo
  members n := runs_commaList .rbrace n fun t _ => (objectMember_reads t).leadsTo
  elements := runs_elements
  commaOperands := runs_commaOperands
  infixTail := runs_infixTail
  links := runs_links
  statementSearch := runs_statementSearch
  closingSearch := runs_closingSearch
  commaSearch := runs_commaSearch

/-- The loop of a program, outside of all blocks, leaves at the end only. -/
theorem rest_of_runs_statements {x y : List Stmt × Cursor}
    (h : Runs Prod.snd Prod.snd (statementRound false) x y) : y.2.rest = [] := by
  induction h with
  | @leave x y _ hround _ =>
    obtain ⟨found, s⟩ := x
    rw [statementRound] at hround
    split at hround
    · rename_i hend
      cases hround
      exact List.length_eq_zero_iff.1 (by simpa [left] using hend)
    · split at hround <;> cases hround
  | again _ _ _ _ ih => exact ih

theorem rest_program (s : Cursor) : (program s).next.rest = [] := by
  have hend := rest_of_runs_statements (runs_statements false ([], s))
  rw [program]
  exact hend

theorem leadsTo_wholeExpression (s : Cursor) : s.LeadsTo (wholeExpression s).next := by
  unfold wholeExpression
  have he := (expression_reads s).leadsTo
  generalize expression s = p at he ⊢
  obtain ⟨e, t, ht⟩ := p
  have hmoved := he.trans t.leadsTo_eatSemicolon
  dsimp only at hmoved ⊢
  split
  · exact hmoved
  · exact hmoved.trans (Cursor.moves_complain _ _).leadsTo

/-- From any tokens that end in their only end token, both ways to read come to an end: every
reader goes on at a position that is not before its own and not past the end, where the token and
the one before it are there; every loop leaves after rounds that use up tokens; and a program is
read up to the end token. -/
theorem reading_total {tokens : List Token} (h : EndsOnce tokens) (firstId : NodeId) :
    let start := Cursor.ofTokens tokens firstId
    StandsAt tokens 0 start ∧
      (∀ next, Reader next → ∀ position s, StandsAt tokens position s →
        ∃ later, position ≤ later ∧ StandsAt tokens later (next s)) ∧
      LoopsEnd ∧
      StandsAt tokens (tokens.length - 1) (program start).next ∧
      ∃ later, StandsAt tokens later (wholeExpression start).next := by
  intro start
  have hstart := standsAt_ofTokens h firstId
  refine ⟨hstart, fun next hnext position s hs => hnext.standsAt hs, loopsEnd, ?_, ?_⟩
  · obtain ⟨passed, hmoves⟩ := (statements_reads false start).leadsTo
    have hend := hstart.moves hmoves
    have hlength := congrArg List.length hend.ahead
    have hrest : (statements false start).next.rest = [] := rest_program start
    rw [hrest, List.length_drop, List.nil_append, List.length_singleton] at hlength
    have hposition : tokens.length - 1 = 0 + passed.length := by omega
    rw [hposition]
    exact hend
  · obtain ⟨passed, hmoves⟩ := leadsTo_wholeExpression start
    exact ⟨_, hstart.moves hmoves⟩

def strayTokens : List Token :=
  [⟨.mark .rparen, ⟨0, 1⟩⟩, ⟨.mark .rbrace, ⟨1, 2⟩⟩, ⟨.eof, ⟨2, 2⟩⟩]

theorem strayTokens_total : EndsOnce strayTokens ∧
    StandsAt strayTokens 2 (program (.ofTokens strayTokens 0)).next := by
  have hends : EndsOnce strayTokens :=
    ⟨[⟨.mark .rparen, ⟨0, 1⟩⟩, ⟨.mark .rbrace, ⟨1, 2⟩⟩], ⟨2, 2⟩, rfl, by simp⟩
  exact ⟨hends, (reading_total hends 0).2.2.2.1⟩

end ScriptFold.Grammar
