import ScriptFold.Proofs.Expr.WellFormed
import ScriptFold.Proofs.Expr.Words
import ScriptFold.Proofs.Grammar.Derivation

/-!
What was read fits where it was read.

Which nodes may stand in a place and how they are put together is proved by induction on the
derivation of a tree. A reading of statements that complains about nothing derives its expressions,
so that what it gives is well formed.
-/

namespace ScriptFold.Grammar

open Cursor ScriptFold.Expr

/-! ## Tokens -/

theorem atom?_spec {k : TokenKind} {make : Node → Expr} (h : atom? k = some make) (n : Node) :
    (make n).children = [] ∧ (make n).WellFormed ∧ (make n).words = [.leaf (make n)] ∧
      (make n).IsReadAs k ∧ (make n).span = n.span := by
  have hleaf (e : Expr) (hoperand : e.isOperand) (hsound : e.Sound) (hchildren : e.children = []) :
      e.WellFormed :=
    ⟨hoperand, everywhere_of hsound (by simp [hchildren])⟩
  cases k with
  | number x =>
    cases h
    exact ⟨rfl, hleaf _ rfl ⟨trivial, trivial⟩ rfl, rfl, rfl, rfl⟩
  | string x =>
    cases h
    exact ⟨rfl, hleaf _ rfl ⟨trivial, trivial⟩ rfl, rfl, rfl, rfl⟩
  | ident x =>
    cases h
    exact ⟨rfl, hleaf _ rfl ⟨trivial, trivial⟩ rfl, rfl, rfl, rfl⟩
  | keyword w =>
    cases w <;> cases h <;> exact ⟨rfl, hleaf _ rfl ⟨trivial, trivial⟩ rfl, rfl, rfl, rfl⟩
  | mark m => cases h
  | eof => cases h
  | error => cases h

theorem plainKey?_spec {k : TokenKind} {make : Node → Expr} {short : Option String}
    (h : plainKey? k = some (make, short)) (n : Node) :
    (make n).isPlainKey ∧ (make n).Everywhere Sound ∧ (make n).words = [.leaf (make n)] ∧
      (make n).IsReadAs k ∧ (make n).span = n.span := by
  have hleaf (e : Expr) (hsound : e.Sound) (hchildren : e.children = []) : e.Everywhere Sound :=
    everywhere_of hsound (by simp [hchildren])
  cases k with
  | number x =>
    cases h
    exact ⟨rfl, hleaf _ ⟨trivial, trivial⟩ rfl, rfl, rfl, rfl⟩
  | string x =>
    cases h
    exact ⟨rfl, hleaf _ ⟨trivial, trivial⟩ rfl, rfl, rfl, rfl⟩
  | ident x =>
    cases h
    exact ⟨rfl, hleaf _ ⟨trivial, trivial⟩ rfl, rfl, rfl, rfl⟩
  | keyword w =>
    cases h
    exact ⟨rfl, hleaf _ ⟨trivial, trivial⟩ rfl, rfl, rfl, rfl⟩
  | mark m => cases h
  | eof => cases h
  | error => cases h

/-! ## Shapes -/

/-- Which nodes may stand in a list. -/
def Place.allows : Place → Expr → Bool
  | element, e => e.isElement
  | member, e => e.isMember

/-- All that was read is well formed and may stand where it was read. -/
def Reading.Fits : Reading → Prop
  | expr e => e.WellFormed
  | operands es => ∀ e ∈ es, e.WellFormed
  | elements es => ∀ e, some e ∈ es → e.isElement ∧ e.Everywhere Sound
  | item place found => ∀ e ∈ found, place.allows e ∧ e.Everywhere Sound
  | items place es => ∀ e ∈ es, place.allows e ∧ e.Everywhere Sound

theorem Derives.fits {r : Reading} {passed : List Token} (h : Derives r passed) : r.Fits := by
  induction h with
  | @atom make n k hk _ => exact (atom?_spec hk n).2.1
  | group _ _ _ ih => exact ih
  | array n _ _ _ ih =>
    refine ⟨rfl, everywhere_of ⟨fun e he => (ih e he).1, trivial⟩ fun c hc => ?_⟩
    obtain ⟨e, he, rfl⟩ := List.mem_filterMap.1 hc
    exact (ih c he).2
  | object n _ _ _ ih =>
    exact ⟨rfl, everywhere_of ⟨fun m hm => (ih m hm).1, trivial⟩ fun m hm => (ih m hm).2⟩
  | unary n _ _ ih =>
    refine ⟨rfl, everywhere_of ⟨ih.1, trivial⟩ ?_⟩
    simpa [children] using ih.2
  | @connective n level op l r k left right _ _ _ ihl ihr =>
    cases op <;>
    · refine ⟨rfl, everywhere_of ⟨⟨ihl.1, ihr.1⟩, trivial⟩ ?_⟩
      simpa [Connective.apply, children] using And.intro ihl.2 ihr.2
  | conditional n _ _ _ _ _ iht ihc iha =>
    refine ⟨rfl, everywhere_of ⟨⟨iht.1, ihc.1, iha.1⟩, trivial⟩ ?_⟩
    simpa [children] using And.intro iht.2 (And.intro ihc.2 iha.2)
  | assign n _ hassignable _ _ iht ihv =>
    refine ⟨rfl, everywhere_of ⟨⟨hassignable, ihv.1⟩, trivial⟩ ?_⟩
    simpa [children] using And.intro iht.2 ihv.2
  | @sequence n first second more passed rest _ _ ihf ihm =>
    have hall : ∀ e ∈ first :: second :: more, e.WellFormed := List.forall_mem_cons.2 ⟨ihf, ihm⟩
    refine ⟨rfl, everywhere_of ⟨⟨?_, fun e he => (hall e he).1⟩, trivial⟩ fun e he => (hall e he).2⟩
    simp
  | operandsEnd => exact fun e he => absurd he List.not_mem_nil
  | operand _ _ _ ihe ihm => exact List.forall_mem_cons.2 ⟨ihe, ihm⟩
  | @named n e m x optional link name passed _ _ _ _ ih =>
    refine ⟨rfl, everywhere_of ⟨⟨ih.1, rfl⟩, trivial⟩ ?_⟩
    have hname : (Expr.ident m x).Everywhere Sound :=
      everywhere_of ⟨trivial, trivial⟩ (by simp [children])
    simpa [children] using And.intro ih.2 hname
  | index n _ _ _ _ ihe ihk =>
    refine ⟨rfl, everywhere_of ⟨⟨ihe.1, ihk.1⟩, trivial⟩ ?_⟩
    simpa [children] using And.intro ihe.2 ihk.2
  | call n _ _ _ _ ihf ihx =>
    refine ⟨rfl, everywhere_of ⟨⟨ihf.1, fun x hx => (ihx x hx).1⟩, trivial⟩ ?_⟩
    exact List.forall_mem_cons.2 ⟨ihf.2, fun x hx => (ihx x hx).2⟩
  | elementsEnd => exact fun e he => absurd he List.not_mem_nil
  | hole _ _ ih =>
    intro e he
    rcases List.mem_cons.1 he with he | he
    · cases he
    · exact ih e he
  | lastElement _ ih =>
    intro e he
    rw [List.mem_singleton] at he
    cases he
    exact ih _ rfl
  | element _ _ _ ihe ihm =>
    intro e he
    rcases List.mem_cons.1 he with he | he
    · cases he
      exact ihe _ rfl
    · exact ihm e he
  | plain _ ih =>
    rintro e ⟨⟩
    exact ⟨isElement_of_isOperand ih.1, ih.2⟩
  | @spread n place a k passed _ _ ih =>
    rintro e ⟨⟩
    refine ⟨by cases place <;> rfl, everywhere_of ⟨ih.1, trivial⟩ ?_⟩
    simpa [children] using ih.2
  | @property n make short m value key colon passed hkey _ _ _ ih =>
    rintro e ⟨⟩
    obtain ⟨hplain, hsound, -⟩ := plainKey?_spec hkey m
    refine ⟨rfl, everywhere_of ⟨⟨hplain, ih.1⟩, trivial⟩ ?_⟩
    simpa [children] using And.intro hsound ih.2
  | @shorthand n x m l key _ _ hl =>
    rintro e ⟨⟩
    have hname (o : Node) : (Expr.ident o x).Everywhere Sound :=
      everywhere_of ⟨trivial, trivial⟩ (by simp [children])
    refine ⟨rfl, everywhere_of ⟨⟨x, rfl, rfl⟩, hl⟩ ?_⟩
    simpa [children] using And.intro (hname m) (hname l)
  | computed n _ _ _ _ _ ihk ihv =>
    rintro e ⟨⟩
    refine ⟨rfl, everywhere_of ⟨⟨ihk.1, ihv.1, rfl⟩, trivial⟩ ?_⟩
    simpa [children] using And.intro ihk.2 ihv.2
  | itemsEnd => exact fun e he => absurd he List.not_mem_nil
  | lastItem _ ih => exact List.forall_mem_singleton.2 (ih _ rfl)
  | item _ _ _ ihe ihm => exact List.forall_mem_cons.2 ⟨ihe _ rfl, ihm⟩

/-! ## Statements -/

/-- What was read of statements is well formed. -/
def StmtReading.Fits : StmtReading → Prop
  | value init => ∀ e ∈ init, e.WellFormed
  | declarators k ds => ∀ d ∈ ds, d.WellFormed k
  | stmt found => ∀ s ∈ found, s.WellFormed
  | body stmts => Stmt.AllWellFormed stmts

/-- **Readings of statements move over tokens and give what is well formed**, unless something was
complained about. -/
theorem ReadsStmt.spells {s t : Cursor} {r : StmtReading} (h : ReadsStmt s r t) :
    s.Spells {_passed | r.Fits} t := by
  induction h with
  | @noValue s _ => exact (Spells.refl s).mono fun _ _ => nofun
  | value heq he =>
    refine ((spells_eat heq).trans he.spells).mono ?_
    rintro _ ⟨_, -, passed, hderives, -⟩ e ⟨⟩
    exact Derives.fits hderives
  | noName kind _ => exact spells_of_report (.refl _) (Cursor.leadsTo_toStatement _)
  | @lastDeclarator s t u _ kind name init hname _ ih =>
    have hinit := (leadsTo_binding hname).spells.trans ih
    have hchecked := hinit.trans (spells_checkInitializer kind name init u)
    refine (hchecked.trans (Cursor.leadsTo_eatSemicolon _).spells).mono ?_
    rintro _ ⟨_, ⟨_, ⟨_, -, _, hinit, -⟩, _, ⟨-, hconst⟩, -⟩, -⟩
    exact List.forall_mem_singleton.2 ⟨hconst, hinit⟩
  | @declarator s t u v w _ kind name init _ more hname _ hcomma _ ihi ihm =>
    have hinit := (leadsTo_binding hname).spells.trans ihi
    have hchecked := hinit.trans (spells_checkInitializer kind name init u)
    refine ((hchecked.trans (spells_eat hcomma)).trans ihm).mono ?_
    rintro _ ⟨_, ⟨_, ⟨_, ⟨_, -, _, hinit, -⟩, _, ⟨-, hconst⟩, -⟩, -⟩, _, hmore, -⟩
    exact List.forall_mem_cons.2 ⟨⟨hconst, hinit⟩, hmore⟩
  | @importDecl s t u _ decl hword _ hnext =>
    have hmoved := (leadsTo_eatWord hword).trans (spells_importRest t).leadsTo
    rw [hnext] at hmoved
    refine hmoved.spells.mono ?_
    rintro _ - s ⟨⟩
    trivial
  | @noImport s t _ hword _ =>
    have hmoved := (leadsTo_eatWord hword).trans (spells_importRest t).leadsTo
    exact hmoved.spells.mono fun _ _ => nofun
  | declare htake _ ih =>
    refine ((spells_take htake).trans ih).mono ?_
    rintro _ ⟨_, -, _, hds, -⟩ s ⟨⟩
    exact hds
  | @block s t u v _ stmts hopen _ hclose ih =>
    subst hclose
    refine (((spells_eat hopen).trans ih).trans (u.spells_closing .brace s.span)).mono ?_
    rintro _ ⟨_, ⟨_, -, _, hbody, -⟩, -⟩ s ⟨⟩
    exact hbody
  | empty hsemicolon =>
    refine (spells_eat hsemicolon).mono ?_
    rintro _ - s ⟨⟩
    trivial
  | strayBrace s => exact (s.moves_complain _).leadsTo.spells.mono fun _ _ => nofun
  | @expr s t e he =>
    refine (he.spells.trans t.leadsTo_eatSemicolon.spells).mono ?_
    rintro _ ⟨passed, hderives, -⟩ s ⟨⟩
    exact Derives.fits hderives
  | noExpr he => exact he.spells.mono fun _ _ => nofun
  | bodyEnd s => exact (Spells.refl s).mono fun _ _ => trivial
  | stmt _ _ ihone ihmore =>
    refine (ihone.trans ihmore).mono ?_
    rintro _ ⟨_, hone, _, hmore, -⟩
    exact ⟨hone _ rfl, hmore⟩
  | @recovery s t u more _ _ ihnone ihmore =>
    refine ((ihnone.leadsTo.trans t.leadsTo_toStatement).spells.trans ihmore).mono ?_
    rintro _ ⟨_, -, _, hmore, -⟩
    exact hmore

theorem ReadsStmt.leadsTo {s t : Cursor} {r : StmtReading} (h : ReadsStmt s r t) : s.LeadsTo t :=
  h.spells.leadsTo

/-- Statements that were read without a complaint are well formed. -/
theorem ReadsStmt.fits {s t : Cursor} {r : StmtReading} (h : ReadsStmt s r t)
    (hclean : s.Clean t) : r.Fits := h.spells.holds hclean

end ScriptFold.Grammar
