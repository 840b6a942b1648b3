import Mathlib.Computability.Language
import ScriptFold.Proofs.Grammar.Reading

/-!
How cursors move.

A cursor moves over some tokens, one after another: it never goes back, leaves none of them out and
does not pass the end. Diagnostics are added and never taken back. All readings move this way.

Where nothing was complained about, more is known of the tokens: they make up a word of a language.
Ways from one cursor to the next are put together as these languages are multiplied.
-/

namespace ScriptFold

def TokenKind.alone (kind : TokenKind) : Language Token := {passed | ∃ span, passed = [⟨kind, span⟩]}

namespace Cursor

/-- `s.Moves over t`: the cursor moved from `s` to `t` over exactly these tokens. -/
structure Moves (s : Cursor) (passed : List Token) (t : Cursor) : Prop where
  rest : s.rest = passed ++ t.rest
  last : t.last = (passed.getLast?.map Token.span).getD s.last
  finish : t.finish = s.finish
  diagnostics : s.diagnostics <+: t.diagnostics

/-- The cursor moves to another one over some tokens. -/
def LeadsTo (s t : Cursor) : Prop := ∃ passed, s.Moves passed t

def Clean (s t : Cursor) : Prop := t.diagnostics = s.diagnostics

/-- The cursor moves to another one, and does so over a word of the language where nothing was
complained about. -/
def Spells (s : Cursor) (l : Language Token) (t : Cursor) : Prop :=
  ∃ passed, s.Moves passed t ∧ (s.Clean t → passed ∈ l)

namespace Moves

variable {s t u : Cursor} {passed more : List Token}

theorem refl (s : Cursor) : s.Moves [] s := ⟨rfl, rfl, rfl, List.prefix_rfl⟩

theorem trans (h₁ : s.Moves passed t) (h₂ : t.Moves more u) : s.Moves (passed ++ more) u where
  rest := by rw [h₁.rest, h₂.rest, List.append_assoc]
  last := by
    rw [h₂.last, h₁.last, List.getLast?_append]
    cases more.getLast? <;> rfl
  finish := h₂.finish.trans h₁.finish
  diagnostics := h₁.diagnostics.trans h₂.diagnostics

theorem still (h : s.Moves passed t) (hu : t.Moves [] u) : s.Moves passed u := by
  have h := h.trans hu
  rwa [List.append_nil] at h

theorem leadsTo (h : s.Moves passed t) : s.LeadsTo t := ⟨passed, h⟩

theorem left_le (h : s.Moves passed t) : t.left ≤ s.left := by
  rw [left, left, h.rest, List.length_append]
  omega

theorem left_lt_iff (h : s.Moves passed t) : t.left < s.left ↔ passed ≠ [] := by
  rw [left, left, h.rest, List.length_append, ← List.length_pos_iff]
  omega

end Moves

namespace LeadsTo

variable {s t u : Cursor}

theorem refl (s : Cursor) : s.LeadsTo s := ⟨[], .refl s⟩

theorem trans (h₁ : s.LeadsTo t) (h₂ : t.LeadsTo u) : s.LeadsTo u := by
  obtain ⟨passed, h₁⟩ := h₁
  obtain ⟨more, h₂⟩ := h₂
  exact ⟨_, h₁.trans h₂⟩

theorem left_le (h : s.LeadsTo t) : t.left ≤ s.left := by
  obtain ⟨passed, h⟩ := h
  exact h.left_le

theorem diagnostics (h : s.LeadsTo t) : s.diagnostics <+: t.diagnostics := by
  obtain ⟨passed, h⟩ := h
  exact h.diagnostics

end LeadsTo

theorem Clean.after {s t u : Cursor} (h : s.Clean u) (h₁ : s.Clean t) : t.Clean u := h.trans h₁.symm

theorem Clean.split {s t u : Cursor} (h : s.Clean u) (h₁ : s.diagnostics <+: t.diagnostics)
    (h₂ : t.diagnostics <+: u.diagnostics) : s.Clean t ∧ t.Clean u := by
  rw [Clean] at h
  rw [h] at h₂
  have heq : t.diagnostics = s.diagnostics := h₂.eq_of_length_le h₁.length_le
  exact ⟨heq, h.trans heq.symm⟩

theorem not_clean_of_report {s t : Cursor} {d : Diagnostic}
    (h : (s.report d).diagnostics <+: t.diagnostics) : ¬s.Clean t := by
  intro hclean
  rw [Clean] at hclean
  have hlength := h.length_le
  rw [hclean, report, List.length_append, List.length_singleton] at hlength
  omega

namespace Spells

variable {s t u : Cursor} {l m : Language Token}

theorem leadsTo (h : s.Spells l t) : s.LeadsTo t := by
  obtain ⟨passed, hmoves, -⟩ := h
  exact hmoves.leadsTo

theorem refl (s : Cursor) : s.Spells 1 s := ⟨[], .refl s, fun _ => Language.nil_mem_one⟩

theorem trans (h₁ : s.Spells l t) (h₂ : t.Spells m u) : s.Spells (l * m) u := by
  obtain ⟨passed, hmoves₁, hpassed⟩ := h₁
  obtain ⟨more, hmoves₂, hmore⟩ := h₂
  refine ⟨_, hmoves₁.trans hmoves₂, fun hclean => ?_⟩
  obtain ⟨hclean₁, hclean₂⟩ := hclean.split hmoves₁.diagnostics hmoves₂.diagnostics
  exact Language.append_mem_mul (hpassed hclean₁) (hmore hclean₂)

theorem still (h : s.Spells l t) (hu : t.Moves [] u) : s.Spells l u := by
  obtain ⟨passed, hmoves, hpassed⟩ := h
  exact ⟨passed, hmoves.still hu, fun hclean =>
    hpassed (hclean.split hmoves.diagnostics hu.diagnostics).1⟩

theorem mono (h : s.Spells l t) (hle : ∀ passed ∈ l, passed ∈ m) : s.Spells m t := by
  obtain ⟨passed, hmoves, hpassed⟩ := h
  exact ⟨passed, hmoves, fun hclean => hle passed (hpassed hclean)⟩

/-- What is known whatever tokens the cursor moves over. -/
theorem holds {p : Prop} (h : s.Spells {_passed | p} t) (hclean : s.Clean t) : p := by
  obtain ⟨passed, -, hp⟩ := h
  exact hp hclean

end Spells

theorem LeadsTo.spells {s t : Cursor} (h : s.LeadsTo t) : s.Spells ⊤ t := by
  obtain ⟨passed, hmoves⟩ := h
  exact ⟨passed, hmoves, fun _ => trivial⟩

theorem LeadsTo.before {s t u : Cursor} {p : Prop} (h : s.LeadsTo t)
    (hp : t.Spells {_passed | p} u) : s.Spells {_passed | p} u := by
  refine (h.spells.trans hp).mono ?_
  rintro _ ⟨_, -, _, hp, -⟩
  exact hp

theorem moves_report (s : Cursor) (d : Diagnostic) : s.Moves [] (s.report d) :=
  ⟨rfl, rfl, rfl, List.prefix_append _ _⟩

theorem spells_of_report {s t u : Cursor} {d : Diagnostic} {l : Language Token} (h₁ : s.LeadsTo t)
    (h₂ : (t.report d).LeadsTo u) : s.Spells l u := by
  obtain ⟨before, h₁⟩ := h₁
  obtain ⟨after, h₂⟩ := h₂
  have hreport := (t.moves_report d).trans h₂
  refine ⟨_, h₁.trans hreport, fun hclean => ?_⟩
  obtain ⟨-, hclean⟩ := hclean.split h₁.diagnostics hreport.diagnostics
  exact absurd hclean (not_clean_of_report h₂.diagnostics)

/-! ## Steps of cursors -/

section Steps

variable {s t : Cursor} {ht : t.left < s.left}

theorem moves_take {β : Type} {test : TokenKind → Option β} {b : β} {span : Span}
    (h : s.take test = some (b, span, ⟨t, ht⟩)) :
    ∃ k, test k = some b ∧ s.Moves [⟨k, span⟩] t ∧ s.Clean t := by
  unfold take at h
  split at h
  · cases h
  · rename_i token rest hrest
    obtain ⟨b', hb, he⟩ := Option.map_eq_some_iff.1 h
    cases he
    exact ⟨token.kind, hb, ⟨hrest, rfl, rfl, List.prefix_rfl⟩, rfl⟩

theorem spells_take {β : Type} {test : TokenKind → Option β} {b : β} {span : Span}
    (h : s.take test = some (b, span, ⟨t, ht⟩)) :
    s.Spells {passed | ∃ k, test k = some b ∧ passed = [⟨k, span⟩]} t := by
  obtain ⟨k, hk, hmoves, -⟩ := moves_take h
  exact ⟨_, hmoves, fun _ => ⟨k, hk, rfl⟩⟩

theorem leadsTo_take {β : Type} {test : TokenKind → Option β} {b : β} {span : Span}
    (h : s.take test = some (b, span, ⟨t, ht⟩)) : s.LeadsTo t := (spells_take h).leadsTo

theorem moves_eat {m : Mark} (h : s.eat m = some ⟨t, ht⟩) :
    ∃ span, s.Moves [⟨.mark m, span⟩] t ∧ s.Clean t := by
  obtain ⟨⟨b, span, u⟩, htake, rfl⟩ := Option.map_eq_some_iff.1 h
  obtain ⟨k, hk, hmoves, hclean⟩ := moves_take htake
  simp only [Option.ite_none_right_eq_some] at hk
  obtain ⟨rfl, -⟩ := hk
  exact ⟨span, hmoves, hclean⟩

theorem spells_eat {m : Mark} (h : s.eat m = some ⟨t, ht⟩) :
    s.Spells (TokenKind.mark m).alone t := by
  obtain ⟨span, hmoves, -⟩ := moves_eat h
  exact ⟨_, hmoves, fun _ => ⟨span, rfl⟩⟩

theorem leadsTo_eat {m : Mark} (h : s.eat m = some ⟨t, ht⟩) : s.LeadsTo t := (spells_eat h).leadsTo

theorem leadsTo_eatWord {k : Keyword} (h : s.eatWord k = some ⟨t, ht⟩) : s.LeadsTo t := by
  obtain ⟨⟨b, span, u⟩, htake, rfl⟩ := Option.map_eq_some_iff.1 h
  exact leadsTo_take htake

theorem moves_binding {name : Name} (h : s.binding = some (name, ⟨t, ht⟩)) :
    ∃ passed, s.Moves passed t ∧ s.Clean t := by
  obtain ⟨⟨b, span, u⟩, htake, he⟩ := Option.map_eq_some_iff.1 h
  cases he
  obtain ⟨k, -, hmoves, hclean⟩ := moves_take htake
  exact ⟨_, hmoves, hclean⟩

theorem leadsTo_binding {name : Name} (h : s.binding = some (name, ⟨t, ht⟩)) : s.LeadsTo t := by
  obtain ⟨passed, hmoves, -⟩ := moves_binding h
  exact hmoves.leadsTo

end Steps

section Recoveries

variable (s : Cursor)

theorem moves_complain (c : Complaint) : s.Moves [] (s.complain c) := s.moves_report _

theorem moves_node (span : Span) : s.Moves [] (s.node span).2 := ⟨rfl, rfl, rfl, List.prefix_rfl⟩

theorem moves_advance : s.Moves (s.rest.take 1) s.advance := by
  obtain ⟨rest, finish, last, nextId, diagnostics⟩ := s
  cases rest with
  | nil => exact .refl _
  | cons token rest => exact ⟨rfl, rfl, rfl, List.prefix_rfl⟩

theorem leadsTo_skip (n : Nat) : s.LeadsTo (s.skip n) := by
  induction n generalizing s with
  | zero => exact .refl s
  | succ n ih => exact s.moves_advance.leadsTo.trans (ih s.advance)

theorem leadsTo_toStatement : s.LeadsTo s.toStatement := s.leadsTo_skip _

theorem moves_eatSemicolon : ∃ passed, s.Moves passed s.eatSemicolon ∧ s.Clean s.eatSemicolon ∧
    ∀ t ∈ passed, t.kind = .mark .semicolon := by
  unfold eatSemicolon
  split
  · rename_i heat
    obtain ⟨span, hmoves, hclean⟩ := moves_eat heat
    exact ⟨_, hmoves, hclean, by simp⟩
  · exact ⟨[], .refl s, rfl, by simp⟩

theorem leadsTo_eatSemicolon : s.LeadsTo s.eatSemicolon := by
  obtain ⟨passed, hmoves, -⟩ := s.moves_eatSemicolon
  exact hmoves.leadsTo

theorem spells_closing (d : Delimiter) (opened : Span) :
    s.Spells {passed | (s.closing d opened).value ∧ passed ∈ (TokenKind.mark d.closing).alone}
      (s.closing d opened).next := by
  unfold closing
  split
  · rename_i heat
    exact (spells_eat heat).mono fun _ hpassed => ⟨rfl, hpassed⟩
  · have hskip := (s.report (Complaint.unclosed d opened s.span s.kind)).leadsTo_skip
      (runToClosing d 0 s.rest)
    dsimp only
    split
    · rename_i heat
      exact spells_of_report (.refl s) (hskip.trans (leadsTo_eat heat))
    · exact spells_of_report (.refl s) hskip

theorem spells_expect (wanted : TokenKind) :
    s.Spells {passed | (s.expect wanted).value ∧ passed ∈ wanted.alone} (s.expect wanted).next := by
  unfold expect
  split
  · rename_i htake
    refine (spells_take htake).mono ?_
    rintro _ ⟨k, hk, rfl⟩
    simp only [Option.ite_none_right_eq_some] at hk
    obtain ⟨rfl, -⟩ := hk
    exact ⟨rfl, _, rfl⟩
  · exact spells_of_report (.refl s) (.refl _)

theorem spells_expectBinding :
    s.Spells {_passed | s.expectBinding.value.isSome} s.expectBinding.next := by
  unfold expectBinding
  split
  · rename_i hname
    exact (leadsTo_binding hname).spells.mono fun _ _ => rfl
  · exact spells_of_report (.refl s) (.refl _)

end Recoveries

end Cursor

namespace Grammar

open Cursor

/-! ## Parts of expressions -/

theorem spells_memberName (s : Cursor) :
    s.Spells {passed | ∃ k span n x, passed = [⟨k, span⟩] ∧ k.name? = some x ∧
      n.span = span ∧ (memberName s).value = .ident n x} (memberName s).next := by
  unfold memberName
  split
  · rename_i x span t h htake
    refine ((spells_take htake).still (t.moves_node span)).mono ?_
    rintro _ ⟨k, hk, rfl⟩
    exact ⟨k, span, _, x, rfl, hk, rfl, rfl⟩
  · exact spells_of_report (.refl s) (Cursor.moves_node _ s.span).leadsTo

theorem spells_noExpression (s : Cursor) : s.Spells 0 (noExpression s).next := by
  unfold noExpression
  dsimp only
  split
  · exact spells_of_report (.refl s) (Cursor.moves_node _ s.span).leadsTo
  · exact spells_of_report (.refl s)
      ((Cursor.moves_advance _).leadsTo.trans (Cursor.moves_node _ s.span).leadsTo)

theorem spells_checkTarget (target : Expr) (s : Cursor) :
    s.Spells {passed | passed = [] ∧ target.isAssignable} (checkTarget target s) := by
  unfold checkTarget
  split
  · rename_i h
    exact ⟨[], .refl s, fun _ => ⟨rfl, h⟩⟩
  · exact spells_of_report (.refl s) (.refl _)

theorem Opens.spells {link : Link} {s t : Cursor} {opened : Span} (h : Opens link s opened t) :
    s.Spells {passed | ∀ k ∈ passed, (link? k.kind).isSome} t := by
  cases h with
  | direct htake =>
    refine (spells_take htake).mono ?_
    rintro _ ⟨k, hk, rfl⟩
    exact List.forall_mem_singleton.2 (Option.isSome_of_eq_some hk)
  | optional hoptional htake =>
    refine ((spells_take hoptional).trans (spells_take htake)).mono ?_
    rintro _ ⟨_, ⟨k, hk, rfl⟩, _, ⟨l, hl, rfl⟩, rfl⟩
    exact List.forall_mem_cons.2 ⟨Option.isSome_of_eq_some hk,
      List.forall_mem_singleton.2 (Option.isSome_of_eq_some hl)⟩

/-! ## Parts of statements -/

theorem leadsTo_importSpecifier (s : Cursor) : s.LeadsTo (importSpecifier s).next := by
  unfold importSpecifier
  split
  · exact (s.moves_complain _).leadsTo
  · rename_i name bindable span t h htake
    split
    · rename_i u hu hword
      have hname := u.spells_expectBinding.leadsTo
      generalize u.expectBinding = p at hname ⊢
      obtain ⟨found, v, hv⟩ := p
      exact ((leadsTo_take htake).trans (leadsTo_eatWord hword)).trans hname
    · split
      · exact leadsTo_take htake
      · exact (leadsTo_take htake).trans (t.moves_complain _).leadsTo

/-- A list between commas moves over tokens if its items do. -/
theorem leadsTo_commaList {α : Type} (closing : Mark) {n : Nat}
    {item : (t : Cursor) → t.left ≤ n → Parsed (Option α) t}
    (hitem : ∀ (t : Cursor) (ht : t.left ≤ n), t.LeadsTo (item t ht).next)
    (s : Cursor) (hs : s.left ≤ n) : s.LeadsTo (s.commaList closing n item hs).next := by
  rw [commaList]
  split
  · exact .refl s
  have hone := hitem s hs
  generalize item s hs = p at hone ⊢
  obtain ⟨found, s₁, h₁⟩ := p
  dsimp only at hone ⊢
  have hpast : s.LeadsTo (if found.isSome then s₁ else s₁.skip (runToComma closing s₁.rest)) := by
    split
    · exact hone
    · exact hone.trans (s₁.leadsTo_skip _)
  have hle := hpast.left_le
  split
  · exact hpast
  · rename_i s₃ h₃ heat
    exact (hpast.trans (leadsTo_eat heat)).trans (leadsTo_commaList closing hitem s₃ (by omega))
termination_by s.left
decreasing_by omega

theorem spells_importSource (specifiers : List ImportSpecifier) (s : Cursor) :
    s.Spells {_passed | (importSource specifiers s).value.isSome}
      (importSource specifiers s).next := by
  unfold importSource
  have hfrom := s.spells_expect (.keyword .fromWord)
  generalize s.expect (.keyword .fromWord) = p at hfrom ⊢
  obtain ⟨found, t, h⟩ := p
  dsimp only at hfrom ⊢
  cases found with
  | false =>
    refine hfrom.mono ?_
    rintro _ ⟨hfound, -⟩
    cases hfound
  | true =>
    simp only [if_true]
    split
    · rename_i source span u hu htake
      have hmoved := (hfrom.leadsTo.trans (leadsTo_take htake)).trans u.leadsTo_eatSemicolon
      exact hmoved.spells.mono fun _ _ => rfl
    · exact spells_of_report hfrom.leadsTo (.refl _)

theorem spells_importGroup (specifiers : List ImportSpecifier) (s : Cursor) :
    s.Spells {_passed | (importGroup specifiers s).value.isSome}
      (importGroup specifiers s).next := by
  unfold importGroup
  split
  · rename_i s₁ h₁ heat
    split
    · exact spells_of_report (leadsTo_eat heat) (.refl _)
    · rename_i s₂ h₂ hword
      have hname := ((leadsTo_eat heat).trans (leadsTo_eatWord hword)).before s₂.spells_expectBinding
      generalize s₂.expectBinding = p at hname ⊢
      obtain ⟨found, s₃, h₃⟩ := p
      cases found with
      | none => exact hname.mono fun _ hfound => absurd hfound Bool.false_ne_true
      | some name => exact hname.leadsTo.before (spells_importSource _ s₃)
  · rename_i s₁ h₁ heat _
    have hnamed := leadsTo_commaList .rbrace (fun t _ => leadsTo_importSpecifier t) s₁
      (Nat.le_refl s₁.left)
    generalize s₁.commaList .rbrace s₁.left (fun t _ => importSpecifier t) (Nat.le_refl _) = p
      at hnamed ⊢
    obtain ⟨named, s₂, h₂⟩ := p
    dsimp only at hnamed ⊢
    have hclose := ((leadsTo_eat heat).trans hnamed).spells.trans
      (s₂.spells_closing .brace s.span)
    generalize s₂.closing .brace s.span = p at hclose ⊢
    obtain ⟨closed, s₃, h₃⟩ := p
    cases closed with
    | false =>
      refine hclose.mono ?_
      rintro _ ⟨_, -, _, ⟨hclosed, -⟩, -⟩
      cases hclosed
    | true => exact hclose.leadsTo.before (spells_importSource _ s₃)
  · exact spells_of_report (.refl s) (.refl _)

theorem spells_importRest (s : Cursor) :
    s.Spells {_passed | (importRest s).value.isSome} (importRest s).next := by
  unfold importRest
  split
  · rename_i source span t h htake
    exact ((leadsTo_take htake).trans t.leadsTo_eatSemicolon).spells.mono fun _ _ => rfl
  split
  · exact spells_importGroup [] s
  · rename_i name s₁ h₁ hname
    dsimp only
    split
    · rename_i s₂ h₂ heat
      exact ((leadsTo_binding hname).trans (leadsTo_eat heat)).before (spells_importGroup _ s₂)
    · exact (leadsTo_binding hname).before (spells_importSource _ s₁)

theorem spells_checkInitializer (kind : VarKind) (name : Name) (init : Option Expr) (s : Cursor) :
    s.Spells {passed | passed = [] ∧ (kind = .constVar → init.isSome)}
      (checkInitializer kind name init s) := by
  unfold checkInitializer
  split
  · exact spells_of_report (.refl s) (.refl _)
  · rename_i h
    refine ⟨[], .refl s, fun _ => ⟨rfl, fun hkind => ?_⟩⟩
    rw [not_and, Option.isNone_iff_eq_none, ← ne_eq, Option.ne_none_iff_isSome] at h
    exact h hkind

end Grammar

end ScriptFold
