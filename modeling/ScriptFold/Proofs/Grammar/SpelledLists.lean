import ScriptFold.Proofs.Grammar.Levels

/-!
Reading the items of what was written.

Names are read as they are spelled, and the items of a list are read one after another, if each
item is read up to the comma or bracket after it.
-/

namespace ScriptFold.Grammar

open Cursor ScriptFold.Expr

/-! ## Names -/

theorem spelling_of_ofSpelling? {x : String} {w : Keyword} (h : Keyword.ofSpelling? x = some w) :
    w.spelling = x := by
  simpa using List.find?_some h

theorem name?_ofWord (x : String) : (TokenKind.ofWord x).name? = some x := by
  unfold TokenKind.ofWord
  split
  · rename_i w hw
    exact congrArg some (spelling_of_ofSpelling? hw)
  · rfl

theorem link?_ofWord (x : String) : link? (.ofWord x) = none := by
  unfold TokenKind.ofWord
  split <;> rfl

theorem plainKey?_ofWord (x : String) :
    plainKey? (.ofWord x) = some (fun n => .ident n x, (TokenKind.ofWord x).binding?) := by
  have hname := name?_ofWord x
  generalize TokenKind.ofWord x = k at hname ⊢
  cases k with
  | ident y =>
    cases hname
    rfl
  | keyword w =>
    cases hname
    rfl
  | _ => cases hname

theorem atom?_ofWord {x : String} (h : (TokenKind.ofWord x).binding? = some x) :
    atom? (.ofWord x) = some (fun n => .ident n x) ∧ unaryOp? (.ofWord x) = none ∧
      isBoundary (.ofWord x) = false := by
  generalize TokenKind.ofWord x = k at h ⊢
  cases k with
  | ident y =>
    cases h
    exact ⟨rfl, rfl, rfl⟩
  | keyword w => cases w <;> cases h <;> exact ⟨rfl, rfl, rfl⟩
  | _ => cases h

/-! ## First words -/

/-- The words start with a token that an expression may start with. -/
def Starts (ws : List TokenKind) : Prop :=
  ∃ k ls, ws = k :: ls ∧ isBoundary k = false ∧ k ≠ .mark .ellipsis

section Starts

variable {ws ls : List TokenKind}

theorem Starts.append (h : Starts ws) (ls : List TokenKind) : Starts (ws ++ ls) := by
  obtain ⟨k, rest, rfl, hk⟩ := h
  exact ⟨k, rest ++ ls, rfl, hk⟩

theorem starts_bracketed (needed : Bool) (h : Starts ws) : Starts (bracketed needed ws) := by
  cases needed with
  | false => exact h
  | true => exact ⟨.mark .lparen, _, rfl, rfl, by decide⟩

theorem Starts.head_ne_ellipsis {s : Cursor} (h : Starts ws) (hs : s.ahead = ws ++ ls) :
    ∀ l ∈ s.ahead.head?, l ≠ .mark .ellipsis := by
  obtain ⟨l, rest, rfl, -, hl⟩ := h
  rw [hs]
  rintro _ ⟨⟩
  exact hl

end Starts

/-! ## Lists -/

section Lists

variable (y : Style) (trailing : Bool)

theorem separator_cases {α : Type} (rest : List α) :
    (rest = [] ∧ separator trailing (!rest.isEmpty) = []) ∨
      separator trailing (!rest.isEmpty) = [.mark .comma] := by
  cases rest <;> cases trailing <;> simp [separator]

/-- An item is read up to a comma or the end of its list. -/
def ReadsItem {n : Nat} (closing : Mark) (item : (t : Cursor) → t.left ≤ n → Parsed (Option Expr) t)
    (ws : List TokenKind) (b : Expr) : Prop :=
  (∃ k ls, ws = k :: ls ∧ isBoundary k = false) ∧
  ∀ (t : Cursor) (ht : t.left ≤ n) (ks : List TokenKind), t.ahead = ws ++ ks →
    (∀ k ∈ ks.head?, k = .mark .comma ∨ k = .mark closing) →
    Gets (fun found => ∃ e, found = some e ∧ Is b e) (item t ht) ks

theorem commaList_spelled {n : Nat} {closing : Mark}
    {item : (t : Cursor) → t.left ≤ n → Parsed (Option Expr) t}
    (hclosing : isBoundary (.mark closing)) (hcomma : closing ≠ .comma) {xs : List Expr}
    (hxs : ∀ x ∈ xs, ReadsItem closing item (bracketed (x.rank < 1) (x.spelled y)) x.bare)
    (s : Cursor) (hs : s.left ≤ n) (ks : List TokenKind)
    (hahead : s.ahead = spelledAll y trailing xs ++ .mark closing :: ks) :
    Gets (fun es => bareAll es = bareAll xs) (s.commaList closing n item hs)
      (.mark closing :: ks) := by
  induction xs generalizing s with
  | nil =>
    rw [commaList, if_pos (.inl (isAt_of_ahead hahead))]
    exact ⟨rfl, hahead, rfl⟩
  | cons x rest ih =>
    obtain ⟨⟨k, ls, hk, hboundary⟩, hitem⟩ := hxs x List.mem_cons_self
    have hstart : ¬(s.isAt closing ∨ s.atEnd) := by
      rw [spelledAll, hk] at hahead
      have hne := ne_of_not_isBoundary hboundary hclosing
      simp [isAt, kind_of_ahead hahead, atEnd_of_ahead hahead, hne]
    rw [spelledAll, List.append_assoc, List.append_assoc] at hahead
    rcases separator_cases trailing rest with ⟨rfl, hseparator⟩ | hseparator
    · rw [hseparator] at hahead
      have hone := hitem s hs _ hahead (by simp [spelledAll])
      obtain ⟨⟨e, he, hbare⟩, hreach⟩ := commaList_last item hs hstart hone
        (by simpa [spelledAll] using hcomma)
      refine ⟨?_, hreach⟩
      rw [he]
      exact congrArg (· :: []) hbare
    · rw [hseparator] at hahead
      have hone := hitem s hs _ hahead (by simp)
      obtain ⟨⟨e, more, he, hbare, hmore⟩, hreach⟩ := commaList_more item hs hstart hone
        fun t ht hahead => ih (fun x hx => hxs x (List.mem_cons_of_mem _ hx)) t ht hahead
      refine ⟨?_, hreach⟩
      rw [he]
      show e.bare :: bareAll more = x.bare :: bareAll rest
      rw [hbare, hmore]

/-- An element or argument is read up to where an assignment ends. -/
def ReadsElement (ws : List TokenKind) (b : Expr) : Prop :=
  (∃ k ls, ws = k :: ls ∧ isBoundary k = false) ∧
  ∀ (s : Cursor) (ks : List TokenKind), s.ahead = ws ++ ks → Ends 1 ks →
    Gets (Is b) (element s) ks

theorem ReadsElement.item {ws : List TokenKind} {b : Expr} (h : ReadsElement ws b) (n : Nat) :
    ReadsItem (n := n) .rparen (fun t _ => (element t).map some) ws b := by
  refine ⟨h.1, fun t ht ks hahead hks => ?_⟩
  have hends : Ends 1 ks := by
    intro k hk
    rcases hks k hk with rfl | rfl
    · exact endsBefore_comma
    · exact endsBefore_closing 1 (by simp)
  obtain ⟨he, hreach⟩ := h.2 t ks hahead hends
  exact ⟨⟨_, rfl, he⟩, hreach⟩

theorem elements_spelled {es : List (Option Expr)}
    (hes : ∀ x, some x ∈ es → ReadsElement (bracketed (x.rank < 1) (x.spelled y)) x.bare)
    (s : Cursor) (ks : List TokenKind)
    (hahead : s.ahead = spelledElements y trailing es ++ .mark .rbracket :: ks) :
    Gets (fun found => bareElements found = bareElements es) (elements s)
      (.mark .rbracket :: ks) := by
  induction es generalizing s with
  | nil =>
    rw [elements, if_pos (.inl (isAt_of_ahead hahead))]
    exact ⟨rfl, hahead, rfl⟩
  | cons found rest ih =>
    have hrest := fun s => ih (fun x hx => hes x (List.mem_cons_of_mem _ hx)) s
    cases found with
    | none =>
      rw [spelledElements, List.append_assoc] at hahead
      obtain ⟨t, ht, heat, hreach⟩ := eat_of_ahead hahead
      have hstart : ¬(s.isAt .rbracket ∨ s.atEnd) := by
        simp [isAt, kind_of_ahead hahead, atEnd_of_ahead hahead]
      obtain ⟨hmore, hlast⟩ := hrest t hreach.ahead
      rw [elements, if_neg hstart, heat]
      dsimp only
      generalize elements t = p at hmore hlast ⊢
      obtain ⟨more, u, hu⟩ := p
      refine ⟨?_, hreach.trans hlast⟩
      show none :: bareElements more = none :: bareElements rest
      rw [hmore]
    | some x =>
      obtain ⟨⟨k, ls, hk, hboundary⟩, helement⟩ := hes x List.mem_cons_self
      have hcons : s.ahead = k :: (ls ++ separator trailing (!rest.isEmpty) ++
          spelledElements y trailing rest ++ .mark .rbracket :: ks) := by
        rw [hahead, spelledElements, hk]
        simp
      have hstart : ¬(s.isAt .rbracket ∨ s.atEnd) := by
        have hne := ne_of_not_isBoundary hboundary (l := .mark .rbracket) rfl
        simp [isAt, kind_of_ahead hcons, atEnd_of_ahead hcons, hne]
      have hhole : s.eat .comma = none := by
        refine eat_of_ne fun l hl => ?_
        rw [hcons] at hl
        cases hl
        exact ne_of_not_isBoundary hboundary rfl
      rw [spelledElements, List.append_assoc, List.append_assoc] at hahead
      rw [elements, if_neg hstart, hhole]
      dsimp only
      rcases separator_cases trailing rest with ⟨rfl, hseparator⟩ | hseparator
      · rw [hseparator] at hahead
        obtain ⟨he, hreach⟩ := helement s (.mark .rbracket :: ks) hahead
          (.cons (endsBefore_closing 1 (by simp)) ks)
        generalize element s = p at he hreach ⊢
        obtain ⟨e, t, ht⟩ := p
        have hnone : t.eat .comma = none := eat_of_ne (by rw [hreach.ahead]; simp)
        dsimp only at he hreach ⊢
        rw [hnone]
        refine ⟨?_, hreach⟩
        show [some e.bare] = [some x.bare]
        rw [he]
      · rw [hseparator] at hahead
        obtain ⟨he, hreach⟩ := helement s _ hahead (.cons endsBefore_comma _)
        generalize element s = p at he hreach ⊢
        obtain ⟨e, t, ht⟩ := p
        obtain ⟨u, hu, heat, hcomma⟩ := eat_of_ahead hreach.ahead
        obtain ⟨hmore, hlast⟩ := hrest u hcomma.ahead
        dsimp only at he hreach ⊢
        rw [heat]
        dsimp only
        generalize elements u = p at hmore hlast ⊢
        obtain ⟨more, v, hv⟩ := p
        refine ⟨?_, (hreach.trans hcomma).trans hlast⟩
        show some e.bare :: bareElements more = some x.bare :: bareElements rest
        rw [he, hmore]

theorem commaOperands_spelled {es : List Expr} (hne : es ≠ [])
    (hes : ∀ x ∈ es, ReadsAssignment (bracketed (x.rank < 1) (x.spelled y)) x.bare)
    (s : Cursor) (ks : List TokenKind) (hks : Ends 0 ks)
    (hahead : s.ahead = [.mark .comma] ++ spelledAll y false es ++ ks) :
    Gets (fun found => bareAll found = bareAll es) (commaOperands s) ks := by
  induction es generalizing s with
  | nil => exact absurd rfl hne
  | cons x rest ih =>
    rw [spelledAll, List.append_assoc] at hahead
    obtain ⟨t, ht, heat, hreach⟩ := eat_of_ahead hahead
    have hassignment := hes x List.mem_cons_self
    have hreached := hreach.ahead
    rw [List.append_assoc, List.append_assoc] at hreached
    rw [commaOperands, heat]
    dsimp only
    rcases separator_cases false rest with ⟨rfl, hseparator⟩ | hseparator
    · rw [hseparator] at hreached
      obtain ⟨he, hone⟩ := hassignment t ks hreached (hks.mono (by omega))
      generalize assignment t = p at he hone ⊢
      obtain ⟨e, u, hu⟩ := p
      have hnone : u.eat .comma = none :=
        eat_of_ne fun k hk => (hks k (by rwa [hone.ahead] at hk)).comma rfl
      dsimp only at he hone ⊢
      rw [commaOperands, hnone]
      refine ⟨?_, hreach.trans hone⟩
      show [e.bare] = [x.bare]
      rw [he]
    · rw [hseparator] at hreached
      obtain ⟨he, hone⟩ := hassignment t _ hreached (.cons endsBefore_comma _)
      generalize assignment t = p at he hone ⊢
      obtain ⟨e, u, hu⟩ := p
      have hrest : rest ≠ [] := by
        rintro rfl
        simp [separator] at hseparator
      obtain ⟨hmore, hlast⟩ := ih hrest (fun x hx => hes x (List.mem_cons_of_mem _ hx)) u
        (by rw [hone.ahead, List.append_assoc])
      dsimp only at he hone ⊢
      generalize commaOperands u = p at hmore hlast ⊢
      obtain ⟨more, v, hv⟩ := p
      refine ⟨?_, (hreach.trans hone).trans hlast⟩
      show e.bare :: bareAll more = x.bare :: bareAll rest
      rw [he, hmore]

end Lists

end ScriptFold.Grammar
