import ScriptFold.Proofs.Grammar.Fitting

/-!
The loops of reading.

Readers of lists, of chains and of recoveries repeat a round. A round looks at the next token and
either leaves the loop or goes on, in which case it has used up at least one token. For every loop
the round is given, and the reader is shown to be what comes of repeating it.
-/

namespace ScriptFold.Grammar

open Cursor

/-- What one round of a loop comes to: a result, or the state of the next round. -/
inductive Round (σ ρ : Type)
  | leave (result : ρ)
  | again (state : σ)

section Loops

variable {σ ρ : Type} (cursor : σ → Cursor) (final : ρ → Cursor) (round : σ → Round σ ρ)

/-- `Runs cursor final round x y`: the loop that starts in the state `x` leaves with the result
`y`. Each round that goes on moves over at least one token. -/
inductive Runs : σ → ρ → Prop
  | leave {x : σ} {y : ρ} {passed : List Token} (h : round x = .leave y)
    (hmoves : (cursor x).Moves passed (final y)) : Runs x y
  | again {x y : σ} {z : ρ} {passed : List Token} (h : round x = .again y)
    (hmoves : (cursor x).Moves passed (cursor y)) (hpassed : passed ≠ []) (hrest : Runs y z) :
    Runs x z

/-- What `run` gives is what the first round gives, or what it gives after that round. -/
def Unrolls (run : σ → ρ) (x : σ) : Prop :=
  match round x with
  | .leave y => run x = y ∧ ∃ passed, (cursor x).Moves passed (final y)
  | .again y => run x = run y ∧ ∃ passed, passed ≠ [] ∧ (cursor x).Moves passed (cursor y)

variable {cursor final round}

theorem Runs.leadsTo {x : σ} {y : ρ} (h : Runs cursor final round x y) :
    (cursor x).LeadsTo (final y) := by
  induction h with
  | leave _ hmoves => exact hmoves.leadsTo
  | again _ hmoves _ _ ih => exact hmoves.leadsTo.trans ih

/-- A function that unrolls everywhere is the loop. -/
theorem runs_of_unrolls {run : σ → ρ} (h : ∀ x, Unrolls cursor final round run x) (x : σ) :
    Runs cursor final round x (run x) := by
  have hx := h x
  unfold Unrolls at hx
  cases hround : round x with
  | leave y =>
    rw [hround] at hx
    obtain ⟨hrun, passed, hmoves⟩ := hx
    rw [hrun]
    exact .leave hround hmoves
  | again y =>
    rw [hround] at hx
    obtain ⟨hrun, passed, hpassed, hmoves⟩ := hx
    have hless := hmoves.left_lt_iff.2 hpassed
    rw [hrun]
    exact .again hround hmoves hpassed (runs_of_unrolls h y)
termination_by (cursor x).left

end Loops

/-! ## Statements -/

/-- A round of a module or of a block: one statement, or a recovery. -/
def statementRound (inBlock : Bool) :
    List Stmt × Cursor → Round (List Stmt × Cursor) (List Stmt × Cursor)
  | (found, s) =>
    if s.left = 0 ∨ (inBlock ∧ s.isAt .rbrace) then .leave (found, s)
    else
      match (statement s).value with
      | some one => .again (found ++ [one], (statement s).next)
      | none => .again (found, (statement s).next.toStatement)

def statementLoop (inBlock : Bool) : List Stmt × Cursor → List Stmt × Cursor
  | (found, s) => (found ++ (statements inBlock s).value, (statements inBlock s).next)

theorem runs_statements (inBlock : Bool) (x : List Stmt × Cursor) :
    Runs Prod.snd Prod.snd (statementRound inBlock) x (statementLoop inBlock x) := by
  refine runs_of_unrolls (fun x => ?_) x
  obtain ⟨found, s⟩ := x
  rw [Unrolls, statementRound, statementLoop, statements]
  by_cases hs : s.left = 0 ∨ (inBlock ∧ s.isAt .rbrace)
  · rw [if_pos hs, dif_pos hs]
    exact ⟨by rw [List.append_nil], _, .refl s⟩
  rw [if_neg hs, dif_neg hs]
  obtain ⟨passed, hmoves⟩ := (statement_reads s).leadsTo
  generalize statement s = p at hmoves ⊢
  obtain ⟨value, t, hle, hlt⟩ := p
  cases value with
  | some one =>
    refine ⟨?_, passed, hmoves.left_lt_iff.1 (hlt rfl), hmoves⟩
    rw [statementLoop, List.append_assoc]
    rfl
  | none =>
    obtain ⟨more, hskip⟩ := t.leadsTo_toStatement
    have hmoved := hmoves.trans hskip
    have hless := left_toStatement_lt hle (by omega)
    exact ⟨rfl, _, hmoved.left_lt_iff.1 hless, hmoved⟩

/-- A round of a declaration: one variable, with its value. -/
def declaratorRound (kind : VarKind) :
    List Declarator × Cursor → Round (List Declarator × Cursor) (List Declarator × Cursor)
  | (found, s) =>
    match s.binding with
    | none => .leave (found, (s.complain (.expectedIdentifier s.kind)).toStatement)
    | some (name, t) =>
      let init := initializer t
      let one := ⟨name, init.value, name.span.cover init.next.last⟩
      let u := checkInitializer kind name init.value init.next
      match u.eat .comma with
      | some v => .again (found ++ [one], v)
      | none => .leave (found ++ [one], u.eatSemicolon)

def declaratorLoop (kind : VarKind) : List Declarator × Cursor → List Declarator × Cursor
  | (found, s) => (found ++ (declarators kind s).value, (declarators kind s).next)

theorem runs_declarators (kind : VarKind) (x : List Declarator × Cursor) :
    Runs Prod.snd Prod.snd (declaratorRound kind) x (declaratorLoop kind x) := by
  refine runs_of_unrolls (fun x => ?_) x
  obtain ⟨found, s⟩ := x
  rw [Unrolls, declaratorRound, declaratorLoop, declarators]
  cases hname : s.binding with
  | none =>
    have hskip := (s.complain (.expectedIdentifier s.kind)).leadsTo_toStatement
    exact ⟨by rw [List.append_nil], (s.moves_complain _).leadsTo.trans hskip⟩
  | some found =>
    obtain ⟨name, t, ht⟩ := found
    have hinit := (leadsTo_binding hname).trans (initializer_reads t).leadsTo
    dsimp only
    generalize initializer t = p at hinit ⊢
    obtain ⟨init, u, hu⟩ := p
    have hone := hinit.trans (spells_checkInitializer kind name init u).leadsTo
    dsimp only at hone ⊢
    cases heat : (checkInitializer kind name init u).eat .comma with
    | some v =>
      obtain ⟨v, hv⟩ := v
      obtain ⟨passed, hone⟩ := hone
      obtain ⟨span, hcomma, -⟩ := moves_eat heat
      refine ⟨?_, _, ?_, hone.trans hcomma⟩
      · rw [declaratorLoop, List.append_assoc]
        rfl
      · simp
    | none => exact ⟨rfl, hone.trans (Cursor.leadsTo_eatSemicolon _)⟩

/-! ## Lists -/

/-- Where a list goes on after an item: where the item ends, or at the next comma or closing mark
if there is no item. -/
def pastItem {α : Type} {s : Cursor} (closing : Mark) (p : Parsed (Option α) s) : Cursor :=
  if p.value.isSome then p.next else p.next.skip (runToComma closing p.next.rest)

theorem leadsTo_pastItem {α : Type} {s : Cursor} (closing : Mark) {p : Parsed (Option α) s}
    (h : s.LeadsTo p.next) : s.LeadsTo (pastItem closing p) := by
  unfold pastItem
  split
  · exact h
  · exact h.trans (p.next.leadsTo_skip _)

theorem left_pastItem_le {α : Type} {s : Cursor} (closing : Mark) (p : Parsed (Option α) s) :
    (pastItem closing p).left ≤ s.left := by
  have hle := p.le
  unfold pastItem
  split
  · exact hle
  · rw [left_skip]
    omega

/-- The next item of a list stands after a comma. -/
def nextItem {α : Type} {s : Cursor} (closing : Mark) (p : Parsed (Option α) s) :
    Option { u : Cursor // u.left < s.left } :=
  ((pastItem closing p).eat .comma).map fun ⟨u, hu⟩ =>
    ⟨u, Nat.lt_of_lt_of_le hu (left_pastItem_le closing p)⟩

theorem moves_nextItem {α : Type} {s u : Cursor} {hu : u.left < s.left} {closing : Mark}
    {p : Parsed (Option α) s} (h : s.LeadsTo p.next)
    (hnext : nextItem closing p = some ⟨u, hu⟩) : ∃ passed, passed ≠ [] ∧ s.Moves passed u := by
  obtain ⟨⟨u, hu⟩, heat, he⟩ := Option.map_eq_some_iff.1 hnext
  cases he
  obtain ⟨more, hpast⟩ := leadsTo_pastItem closing h
  obtain ⟨span, hcomma, -⟩ := moves_eat heat
  exact ⟨_, by simp, hpast.trans hcomma⟩

/-- A round of a list between commas: one item, or the way to the next comma. -/
def commaRound {α : Type} (closing : Mark) (n : Nat)
    (item : (t : Cursor) → t.left ≤ n → Parsed (Option α) t) :
    List α × { t : Cursor // t.left ≤ n } →
      Round (List α × { t : Cursor // t.left ≤ n }) (List α × Cursor)
  | (found, ⟨s, hs⟩) =>
    if s.isAt closing ∨ s.atEnd then .leave (found, s)
    else
      let p := item s hs
      match nextItem closing p with
      | none => .leave (found ++ p.value.toList, pastItem closing p)
      | some ⟨u, hu⟩ =>
        .again (found ++ p.value.toList, ⟨u, Nat.le_trans (Nat.le_of_lt hu) hs⟩)

def commaLoop {α : Type} (closing : Mark) (n : Nat)
    (item : (t : Cursor) → t.left ≤ n → Parsed (Option α) t) :
    List α × { t : Cursor // t.left ≤ n } → List α × Cursor
  | (found, ⟨s, hs⟩) =>
    (found ++ (s.commaList closing n item hs).value, (s.commaList closing n item hs).next)

theorem commaLoop_eq {α : Type} (closing : Mark) {n : Nat}
    {item : (t : Cursor) → t.left ≤ n → Parsed (Option α) t} (found : List α) {s : Cursor}
    (hs : s.left ≤ n) (hend : ¬(s.isAt closing ∨ s.atEnd)) :
    commaLoop closing n item (found, ⟨s, hs⟩) =
      match nextItem closing (item s hs) with
      | none => (found ++ (item s hs).value.toList, pastItem closing (item s hs))
      | some ⟨u, hu⟩ =>
        commaLoop closing n item
          (found ++ (item s hs).value.toList, ⟨u, Nat.le_trans (Nat.le_of_lt hu) hs⟩) := by
  rw [commaLoop, commaList, if_neg hend]
  generalize item s hs = p
  obtain ⟨value, t, ht⟩ := p
  dsimp only
  split
  · rename_i heat
    have hnext : nextItem closing ⟨value, t, ht⟩ = none := Option.map_eq_none_iff.2 heat
    rw [hnext]
    rfl
  · rename_i u hu heat
    have hlt : u.left < s.left := Nat.lt_of_lt_of_le hu (left_pastItem_le closing ⟨value, t, ht⟩)
    have hnext : nextItem closing ⟨value, t, ht⟩ = some ⟨u, hlt⟩ :=
      Option.map_eq_some_iff.2 ⟨⟨u, hu⟩, heat, rfl⟩
    rw [hnext]
    dsimp only
    rw [commaLoop, List.append_assoc]

theorem runs_commaList {α : Type} (closing : Mark) (n : Nat)
    {item : (t : Cursor) → t.left ≤ n → Parsed (Option α) t}
    (hitem : ∀ (t : Cursor) (ht : t.left ≤ n), t.LeadsTo (item t ht).next)
    (x : List α × { t : Cursor // t.left ≤ n }) :
    Runs (fun x => x.2.1) Prod.snd (commaRound closing n item) x (commaLoop closing n item x) := by
  refine runs_of_unrolls (fun x => ?_) x
  obtain ⟨found, s, hs⟩ := x
  rw [Unrolls, commaRound]
  by_cases hend : s.isAt closing ∨ s.atEnd
  · rw [if_pos hend, commaLoop, commaList, if_pos hend]
    exact ⟨by rw [List.append_nil], _, .refl s⟩
  rw [if_neg hend, commaLoop_eq closing found hs hend]
  have hone := hitem s hs
  dsimp only
  cases hnext : nextItem closing (item s hs) with
  | none => exact ⟨rfl, leadsTo_pastItem closing hone⟩
  | some u => exact ⟨rfl, moves_nextItem hone hnext⟩

/-- A round of an array: a hole or an element. -/
def elementRound : List (Option Expr) × Cursor →
    Round (List (Option Expr) × Cursor) (List (Option Expr) × Cursor)
  | (found, s) =>
    if s.isAt .rbracket ∨ s.atEnd then .leave (found, s)
    else
      match s.eat .comma with
      | some t => .again (found ++ [none], t)
      | none =>
        let e := (element s).value
        let t := (element s).next
        match t.eat .comma with
        | none => .leave (found ++ [some e], t)
        | some u => .again (found ++ [some e], u)

def elementLoop : List (Option Expr) × Cursor → List (Option Expr) × Cursor
  | (found, s) => (found ++ (elements s).value, (elements s).next)

theorem runs_elements (x : List (Option Expr) × Cursor) :
    Runs Prod.snd Prod.snd elementRound x (elementLoop x) := by
  refine runs_of_unrolls (fun x => ?_) x
  obtain ⟨found, s⟩ := x
  rw [Unrolls, elementRound, elementLoop, elements]
  by_cases hend : s.isAt .rbracket ∨ s.atEnd
  · rw [if_pos hend, if_pos hend]
    exact ⟨by rw [List.append_nil], _, .refl s⟩
  rw [if_neg hend, if_neg hend]
  cases hhole : s.eat .comma with
  | some t =>
    obtain ⟨t, ht⟩ := t
    obtain ⟨span, hcomma, -⟩ := moves_eat hhole
    refine ⟨?_, _, ?_, hcomma⟩
    · rw [elementLoop, List.append_assoc]
      rfl
    · simp
  | none =>
    obtain ⟨passed, hone⟩ := (element_reads s).leadsTo
    generalize element s = p at hone ⊢
    obtain ⟨e, t, ht⟩ := p
    dsimp only at hone ⊢
    cases heat : t.eat .comma with
    | none => exact ⟨rfl, _, hone⟩
    | some u =>
      obtain ⟨u, hu⟩ := u
      obtain ⟨span, hcomma, -⟩ := moves_eat heat
      refine ⟨?_, _, ?_, hone.trans hcomma⟩
      · rw [elementLoop, List.append_assoc]
        rfl
      · simp

/-- A round of the comma operator: one more operand. -/
def operandRound : List Expr × Cursor → Round (List Expr × Cursor) (List Expr × Cursor)
  | (found, s) =>
    match s.eat .comma with
    | none => .leave (found, s)
    | some ⟨t, _⟩ => .again (found ++ [(assignment t).value], (assignment t).next)

def operandLoop : List Expr × Cursor → List Expr × Cursor
  | (found, s) => (found ++ (commaOperands s).value, (commaOperands s).next)

theorem runs_commaOperands (x : List Expr × Cursor) :
    Runs Prod.snd Prod.snd operandRound x (operandLoop x) := by
  refine runs_of_unrolls (fun x => ?_) x
  obtain ⟨found, s⟩ := x
  rw [Unrolls, operandRound, operandLoop, commaOperands]
  cases heat : s.eat .comma with
  | none => exact ⟨by rw [List.append_nil], _, .refl s⟩
  | some t =>
    obtain ⟨t, ht⟩ := t
    obtain ⟨span, hcomma, -⟩ := moves_eat heat
    obtain ⟨passed, hone⟩ := (assignment_reads t).leadsTo
    dsimp only
    generalize assignment t = p at hone ⊢
    obtain ⟨e, u, hu⟩ := p
    refine ⟨?_, _, ?_, hcomma.trans hone⟩
    · rw [operandLoop, List.append_assoc]
      rfl
    · simp

/-! ## Chains -/

/-- A round of operators between operands: one operator and its right operand. -/
def infixRound (least : Nat) : Expr × Cursor → Round (Expr × Cursor) (Expr × Cursor)
  | (left, s) =>
    match s.take (connectiveFrom? least) with
    | none => .leave (left, s)
    | some ((level, op), _, ⟨t, _⟩) =>
      let right := (infixLevel (rightLevel level) t).value
      let u := (infixLevel (rightLevel level) t).next
      let (node, v) := u.node (left.span.cover right.span)
      .again (op.apply node left right, v)

def infixLoop (least : Nat) : Expr × Cursor → Expr × Cursor
  | (left, s) => ((infixTail least left s).value, (infixTail least left s).next)

theorem infixLoop_eq {least level : Nat} (left : Expr) {s t : Cursor} {op : Connective}
    {span : Span} {ht : t.left < s.left}
    (htake : s.take (connectiveFrom? least) = some ((level, op), span, ⟨t, ht⟩)) :
    let right := (infixLevel (rightLevel level) t).value
    let node := (infixLevel (rightLevel level) t).next.node (left.span.cover right.span)
    infixLoop least (left, s) = infixLoop least (op.apply node.1 left right, node.2) := by
  rw [infixLoop, infixTail, htake]
  rfl

theorem runs_infixTail (least : Nat) (x : Expr × Cursor) :
    Runs Prod.snd Prod.snd (infixRound least) x (infixLoop least x) := by
  refine runs_of_unrolls (fun x => ?_) x
  obtain ⟨left, s⟩ := x
  rw [Unrolls, infixRound]
  cases htake : s.take (connectiveFrom? least) with
  | none =>
    rw [infixLoop, infixTail, htake]
    exact ⟨rfl, _, .refl s⟩
  | some found =>
    obtain ⟨⟨level, op⟩, span, t, ht⟩ := found
    have hrun := infixLoop_eq left htake
    obtain ⟨k, -, hmoves, -⟩ := moves_take htake
    obtain ⟨passed, hright⟩ := (infixLevel_reads (rightLevel level) t).leadsTo
    dsimp only at hrun ⊢
    generalize infixLevel (rightLevel level) t = p at hright hrun ⊢
    obtain ⟨right, u, hu⟩ := p
    exact ⟨hrun, _, by simp, (hmoves.trans hright).still (u.moves_node _)⟩

/-- What a link adds to the expression before it. -/
def linkPart (e : Expr) (chained : Bool) (link : Link) (span : Span) (s : Cursor) :
    (Node → Expr) × Cursor :=
  match link with
  | .dot => (fun n => .member n e (memberName s).value false chained, (memberName s).next)
  | .index =>
    (fun n => .member n e (computedKey span s).value true chained, (computedKey span s).next)
  | .call => (fun n => .call n e (arguments span s).value chained, (arguments span s).next)
  | .optional =>
    match s.take link? with
    | some (.index, span, ⟨t, _⟩) =>
      (fun n => .member n e (computedKey span t).value true true, (computedKey span t).next)
    | some (.call, span, ⟨t, _⟩) =>
      (fun n => .call n e (arguments span t).value true, (arguments span t).next)
    | _ => (fun n => .member n e (memberName s).value false true, (memberName s).next)

/-- A round of member accesses and calls: one link. -/
def linkRound : Expr × Bool × Cursor → Round (Expr × Bool × Cursor) (Expr × Cursor)
  | (e, chained, s) =>
    match s.take link? with
    | none => .leave (e, s)
    | some (link, span, ⟨t, _⟩) =>
      let chained := chained || link = .optional
      let (make, u) := linkPart e chained link span t
      let (node, v) := u.node (e.span.cover u.last)
      .again (make node, chained, v)

def linkLoop : Expr × Bool × Cursor → Expr × Cursor
  | (e, chained, s) => ((links e chained s).value, (links e chained s).next)

theorem leadsTo_computedKey (opened : Span) (s : Cursor) :
    s.LeadsTo (computedKey opened s).next := by
  rw [computedKey]
  have hkey := (expression_reads s).leadsTo
  generalize expression s = p at hkey ⊢
  obtain ⟨key, t, ht⟩ := p
  exact hkey.trans (t.spells_closing .bracket opened).leadsTo

theorem leadsTo_arguments (opened : Span) (s : Cursor) :
    s.LeadsTo (arguments opened s).next := by
  rw [arguments]
  have hitem (t : Cursor) (_ : t.left ≤ s.left) : t.LeadsTo ((element t).map some).next :=
    (element_reads t).leadsTo
  have hitems := leadsTo_commaList .rparen hitem s (Nat.le_refl s.left)
  generalize s.commaList .rparen s.left (fun t _ => (element t).map some) (Nat.le_refl _) = p
    at hitems ⊢
  obtain ⟨items, t, ht⟩ := p
  exact hitems.trans (t.spells_closing .paren opened).leadsTo

theorem leadsTo_linkPart (e : Expr) (chained : Bool) (link : Link) (span : Span) (s : Cursor) :
    s.LeadsTo (linkPart e chained link span s).2 := by
  have hname := (spells_memberName s).leadsTo
  cases link with
  | dot => exact hname
  | index => exact leadsTo_computedKey span s
  | call => exact leadsTo_arguments span s
  | optional =>
    unfold linkPart
    dsimp only
    split
    · rename_i span t ht htake
      exact (leadsTo_take htake).trans (leadsTo_computedKey span t)
    · rename_i span t ht htake
      exact (leadsTo_take htake).trans (leadsTo_arguments span t)
    · exact hname

theorem linkLoop_eq (e : Expr) (chained : Bool) {s t : Cursor} {link : Link} {span : Span}
    {ht : t.left < s.left} (htake : s.take link? = some (link, span, ⟨t, ht⟩)) :
    let part := linkPart e (chained || link = .optional) link span t
    let node := part.2.node (e.span.cover part.2.last)
    linkLoop (e, chained, s) =
      linkLoop (part.1 node.1, chained || link = .optional, node.2) := by
  rw [linkLoop, links, htake]
  cases link with
  | dot | index | call => rfl
  | optional =>
    dsimp only [linkPart]
    cases t.take link? with
    | none => rfl
    | some found =>
      obtain ⟨link, span, u, hu⟩ := found
      cases link <;> rfl

theorem runs_links (x : Expr × Bool × Cursor) :
    Runs (fun x => x.2.2) Prod.snd linkRound x (linkLoop x) := by
  refine runs_of_unrolls (fun x => ?_) x
  obtain ⟨e, chained, s⟩ := x
  rw [Unrolls, linkRound]
  cases htake : s.take link? with
  | none =>
    rw [linkLoop, links, htake]
    exact ⟨rfl, _, .refl s⟩
  | some found =>
    obtain ⟨link, span, t, ht⟩ := found
    have hrun := linkLoop_eq e chained htake
    obtain ⟨k, -, hmoves, -⟩ := moves_take htake
    obtain ⟨passed, hpart⟩ := leadsTo_linkPart e (chained || link = .optional) link span t
    dsimp only at hrun ⊢
    generalize linkPart e (chained || link = .optional) link span t = part at hpart hrun ⊢
    exact ⟨hrun, _, by simp, (hmoves.trans hpart).still (part.2.moves_node _)⟩

/-! ## Recoveries -/

/-- The token was the last of its statement. -/
def endsStatement (t : Token) : Bool := t.kind = .mark .semicolon ∨ t.kind = .mark .rbrace

/-- A round of the way to the next statement, after the token that was left out last. -/
def statementSearchRound : Option Token × Cursor → Round (Option Token × Cursor) Cursor
  | (before, s) =>
    match s.rest with
    | [] => .leave s
    | t :: _ =>
      match before with
      | none => .again (some t, s.advance)
      | some b =>
        if endsStatement b ∨ t.kind = .mark .rbrace ∨ startsStatement t.kind then .leave s
        else .again (some t, s.advance)

def statementSearchLoop : Option Token × Cursor → Cursor
  | (none, s) => s.toStatement
  | (some b, s) =>
    if endsStatement b ∨ s.rest.head?.any (fun next => next.kind = .mark .rbrace ||
      startsStatement next.kind) then s
    else s.toStatement

theorem toStatement_eq {s : Cursor} {t : Token} {rest : List Token} (h : s.rest = t :: rest) :
    s.toStatement = statementSearchLoop (some t, s.advance) := by
  have hrest : s.advance.rest = rest := by rw [advance, h]
  have hstops : (t.kind = .mark .semicolon ∨ t.kind = .mark .rbrace ∨
      rest.head?.any (fun next => next.kind = .mark .rbrace || startsStatement next.kind)) ↔
      (endsStatement t ∨ rest.head?.any (fun next => next.kind = .mark .rbrace ||
        startsStatement next.kind)) := by
    rw [endsStatement, decide_eq_true_iff, or_assoc]
  rw [toStatement, h, runToStatement, statementSearchLoop, hrest]
  simp only [hstops]
  split
  · rfl
  · rw [skip, toStatement, hrest]

theorem runs_statementSearch (x : Option Token × Cursor) :
    Runs Prod.snd (fun s => s) statementSearchRound x (statementSearchLoop x) := by
  refine runs_of_unrolls (fun x => ?_) x
  obtain ⟨before, s⟩ := x
  rw [Unrolls, statementSearchRound]
  have hadvance := s.moves_advance
  cases hrest : s.rest with
  | nil =>
    have hstill : s.toStatement = s := by
      rw [toStatement, hrest]
      rfl
    refine ⟨?_, _, .refl s⟩
    cases before with
    | none => exact hstill
    | some b => rw [statementSearchLoop, hstill, ite_self]
  | cons t rest =>
    rw [hrest] at hadvance
    cases before with
    | none => exact ⟨toStatement_eq hrest, _, by simp, hadvance⟩
    | some b =>
      have hany : (s.rest.head?.any fun next => next.kind = .mark .rbrace ||
          startsStatement next.kind) ↔ (t.kind = .mark .rbrace ∨ startsStatement t.kind) := by
        simp [hrest]
      simp only [statementSearchLoop, hany]
      by_cases hstops : endsStatement b ∨ t.kind = .mark .rbrace ∨ startsStatement t.kind
      · rw [if_pos hstops, if_pos hstops]
        exact ⟨rfl, _, .refl s⟩
      · rw [if_neg hstops, if_neg hstops]
        exact ⟨toStatement_eq hrest, _, by simp, hadvance⟩

/-- A round of the way to a closing mark, inside `depth` more brackets. -/
def closingSearchRound (d : Delimiter) : Nat × Cursor → Round (Nat × Cursor) Cursor
  | (depth, s) =>
    match s.rest with
    | [] => .leave s
    | t :: _ =>
      if t.kind = .mark d.opening then .again (depth + 1, s.advance)
      else if t.kind = .mark d.closing then
        if depth = 0 then .leave s else .again (depth - 1, s.advance)
      else if depth = 0 ∧ t.kind = .mark .semicolon then .leave s
      else .again (depth, s.advance)

def closingSearchLoop (d : Delimiter) : Nat × Cursor → Cursor
  | (depth, s) => s.skip (runToClosing d depth s.rest)

theorem runs_closingSearch (d : Delimiter) (x : Nat × Cursor) :
    Runs Prod.snd (fun s => s) (closingSearchRound d) x (closingSearchLoop d x) := by
  refine runs_of_unrolls (fun x => ?_) x
  obtain ⟨depth, s⟩ := x
  have hadvance := s.moves_advance
  rw [Unrolls, closingSearchRound, closingSearchLoop]
  cases hrest : s.rest with
  | nil => exact ⟨rfl, _, .refl s⟩
  | cons t rest =>
    rw [hrest] at hadvance
    have hnext : s.advance.rest = rest := by rw [advance, hrest]
    have hon (depth : Nat) : s.skip (runToClosing d depth rest + 1) =
        closingSearchLoop d (depth, s.advance) := by
      rw [skip, closingSearchLoop, hnext]
    rw [runToClosing]
    dsimp only
    by_cases hopening : t.kind = .mark d.opening
    · rw [if_pos hopening, if_pos hopening]
      exact ⟨hon _, _, by simp, hadvance⟩
    rw [if_neg hopening, if_neg hopening]
    by_cases hclosing : t.kind = .mark d.closing
    · rw [if_pos hclosing, if_pos hclosing]
      by_cases hdepth : depth = 0
      · rw [if_pos hdepth, if_pos hdepth]
        exact ⟨rfl, _, .refl s⟩
      · rw [if_neg hdepth, if_neg hdepth]
        exact ⟨hon _, _, by simp, hadvance⟩
    rw [if_neg hclosing, if_neg hclosing]
    by_cases hsemicolon : depth = 0 ∧ t.kind = .mark .semicolon
    · rw [if_pos hsemicolon, if_pos hsemicolon]
      exact ⟨rfl, _, .refl s⟩
    · rw [if_neg hsemicolon, if_neg hsemicolon]
      exact ⟨hon _, _, by simp, hadvance⟩

/-- A round of the way to the next item of a list. -/
def commaSearchRound (closing : Mark) (s : Cursor) : Round Cursor Cursor :=
  match s.rest with
  | [] => .leave s
  | t :: _ =>
    if t.kind = .mark .comma ∨ t.kind = .mark closing then .leave s else .again s.advance

def commaSearchLoop (closing : Mark) (s : Cursor) : Cursor := s.skip (runToComma closing s.rest)

theorem runs_commaSearch (closing : Mark) (s : Cursor) :
    Runs (fun s => s) (fun s => s) (commaSearchRound closing) s (commaSearchLoop closing s) := by
  refine runs_of_unrolls (fun s => ?_) s
  have hadvance := s.moves_advance
  rw [Unrolls, commaSearchRound, commaSearchLoop]
  cases hrest : s.rest with
  | nil => exact ⟨rfl, _, .refl s⟩
  | cons t rest =>
    rw [hrest] at hadvance
    have hnext : s.advance.rest = rest := by rw [advance, hrest]
    dsimp only
    rw [runToComma, List.takeWhile_cons]
    by_cases hstops : t.kind = .mark .comma ∨ t.kind = .mark closing
    · rw [if_pos hstops, if_neg (by simpa using fun h => hstops.resolve_left h)]
      exact ⟨rfl, _, .refl s⟩
    · rw [if_neg hstops, if_pos (by simpa using hstops)]
      refine ⟨?_, _, by simp, hadvance⟩
      rw [List.length_cons, skip, commaSearchLoop, hnext, runToComma]

end ScriptFold.Grammar
