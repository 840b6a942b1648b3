import ScriptFold.Grammar.Source
import ScriptFold.Index
import ScriptFold.Proofs.Expr.Nodes

/-!
What refers to an export of a module.

A node stands for an export if it is a name that an import declares for it, or if it is a member of
a name for the whole module. Whether a node refers to the whole module is asked by the name `*`, so
that a name for an export that is called `*`, and the member `*` of the whole module, are taken for
the module too. This is the only difference (`Index.referencesImport_iff_isExport`).
-/

namespace ScriptFold

/-- The import takes the export with this name: by its name, or by default if its name is
`default`. -/
def Imported.Takes (i : Imported) (exported : String) : Prop :=
  i = .named exported ∨ (i = .defaultExport ∧ exported = "default")

theorem Imported.isExport_iff {i : Imported} {exported : String} :
    i.isExport exported ↔ i.Takes exported ∨ (i = .wholeModule ∧ exported = "*") := by
  cases i <;> simp [isExport, Takes]

/-- The object and the name of a member that is asked for by a name, after a point or as a string
in brackets. -/
def Expr.memberByName? : Expr → Option (Expr × String)
  | .member _ o (.ident _ name) false _ | .member _ o (.string _ name) true _ => some (o, name)
  | _ => none

theorem Expr.object_mem_children {e o : Expr} {name : String}
    (h : e.memberByName? = some (o, name)) : o ∈ e.children := by
  unfold memberByName? at h
  split at h <;> cases h <;> exact List.mem_cons_self

namespace Index

variable (index : Index) (source : String)

/-- The node is read as a variable, and an import from the module declares this variable. -/
def Imports (what : Imported) (e : Expr) : Prop :=
  index.isReference e ∧
    ∃ name span, index.binding? e = some ⟨name, .imported source what, span⟩

/-- The node is an imported export of the module, or a member of a name for the whole module. -/
inductive IsExport (exported : String) : Expr → Prop
  | imported {e : Expr} {what : Imported} (h : index.Imports source what e)
    (hwhat : what.Takes exported) : IsExport exported e
  | member {e object : Expr} (hmember : e.memberByName? = some (object, exported))
    (h : index.Imports source .wholeModule object) : IsExport exported e

/-- The node does not stand for the module, but it is taken for it: a name for an export that is
called `*`, or the member `*` of the module or of such a node. -/
inductive Mistaken : Expr → Prop
  | named {e : Expr} (h : index.Imports source (.named "*") e) : Mistaken e
  | member {e object : Expr} (hmember : e.memberByName? = some (object, "*"))
    (h : index.Imports source .wholeModule object) : Mistaken e
  | again {e object : Expr} (hmember : e.memberByName? = some (object, "*"))
    (h : Mistaken object) : Mistaken e

variable {index : Index} {source exported : String} {e object : Expr} {what : Imported}

theorem isReference_of_binding? {b : Binding} (h : index.binding? e = some b) :
    index.isReference e := by
  unfold binding? at h
  split at h
  · assumption
  · cases h

theorem bindsImport_iff :
    index.bindsImport source exported e ↔
      ∃ what : Imported, index.Imports source what e ∧ what.isExport exported := by
  unfold bindsImport
  constructor
  · intro h
    split at h
    · rename_i name source' what span hbinding
      simp only [Bool.and_eq_true, decide_eq_true_eq] at h
      obtain ⟨rfl, hexport⟩ := h
      exact ⟨what, ⟨isReference_of_binding? hbinding, name, span, hbinding⟩, hexport⟩
    · cases h
  · rintro ⟨what, ⟨-, name, span, hbinding⟩, hexport⟩
    rw [hbinding]
    simpa using hexport

theorem Imports.memberByName? (h : index.Imports source what e) : e.memberByName? = none := by
  obtain ⟨href, -⟩ := h
  cases e with
  | ident => rfl
  | _ => simp [isReference, Expr.name?] at href

theorem Imports.unique {what' : Imported} (h : index.Imports source what e)
    (h' : index.Imports source what' e) : what = what' := by
  obtain ⟨-, _, _, hbinding⟩ := h
  obtain ⟨-, _, _, hbinding'⟩ := h'
  rw [hbinding] at hbinding'
  cases hbinding'
  rfl

/-- What is asked for by a name is no variable. -/
theorem bindsImport_eq_false (h : e.name? = none) : index.bindsImport source exported e = false := by
  simp [bindsImport, binding?, isReference, h]

theorem referencesImport_of_member {name : String} (h : e.memberByName? = some (object, name)) :
    index.referencesImport source e exported ↔
      name = exported ∧ index.referencesImport source object "*" := by
  unfold Expr.memberByName? at h
  split at h
  · cases h
    rw [referencesImport]
    simp
  · cases h
    rw [referencesImport]
    simp
  · cases h

theorem referencesImport_of_not_member (h : e.memberByName? = none) :
    index.referencesImport source e exported ↔
      ∃ what : Imported, index.Imports source what e ∧ what.isExport exported := by
  rw [← bindsImport_iff]
  unfold referencesImport
  split
  · rfl
  · cases h
  · cases h
  · rename_i hident _ _
    have hname : e.name? = none := by
      cases e with
      | ident n name => exact (hident n name rfl).elim
      | _ => rfl
    simp [bindsImport_eq_false hname]

/-- What is taken for the module stands for it or is mistaken for it. -/
theorem referencesImport_star_iff (e : Expr) :
    index.referencesImport source e "*" ↔
      index.Imports source .wholeModule e ∨ index.Mistaken source e := by
  induction e using Expr.below_induction with
  | h e ih =>
    cases hmember : e.memberByName? with
    | none =>
      rw [referencesImport_of_not_member hmember]
      constructor
      · rintro ⟨what, h, hexport⟩
        rcases Imported.isExport_iff.1 hexport with (rfl | ⟨-, hname⟩) | ⟨rfl, -⟩
        · exact .inr (.named h)
        · exact absurd hname (by decide)
        · exact .inl h
      · rintro (h | h)
        · exact ⟨_, h, rfl⟩
        · cases h with
          | named h => exact ⟨_, h, rfl⟩
          | member hmember' | again hmember' => cases hmember.symm.trans hmember'
    | some found =>
      obtain ⟨object, name⟩ := found
      have hobject := Expr.Below.of_mem_children (Expr.object_mem_children hmember)
      rw [referencesImport_of_member hmember, ih object hobject]
      constructor
      · rintro ⟨rfl, h | h⟩
        · exact .inr (.member hmember h)
        · exact .inr (.again hmember h)
      · rintro (h | h)
        · cases hmember.symm.trans h.memberByName?
        · cases h with
          | named h => cases hmember.symm.trans h.memberByName?
          | member hmember' h =>
            cases hmember.symm.trans hmember'
            exact ⟨rfl, .inl h⟩
          | again hmember' h =>
            cases hmember.symm.trans hmember'
            exact ⟨rfl, .inr h⟩

theorem Mistaken.not_imports (h : index.Mistaken source e) :
    ¬ index.Imports source .wholeModule e := by
  intro himports
  cases h with
  | named h => cases h.unique himports
  | member hmember | again hmember => cases hmember.symm.trans himports.memberByName?

theorem Mistaken.not_isExport (h : index.Mistaken source object)
    (hmember : e.memberByName? = some (object, exported)) : ¬ index.IsExport source exported e := by
  intro hexport
  cases hexport with
  | imported himports => cases hmember.symm.trans himports.memberByName?
  | member hmember' himports =>
    cases hmember.symm.trans hmember'
    exact h.not_imports himports

/-- **What refers to an export.** A node refers to an export of a module if an import declares it for
the export or if it is a member of a name for the module, or if it is a member of something that is
mistaken for the module; these cases exclude each other. -/
theorem referencesImport_iff_isExport (index : Index) (source : String) (e : Expr)
    {exported : String} (hstar : exported ≠ "*") :
    (index.referencesImport source e exported ↔ index.IsExport source exported e ∨
      ∃ object, e.memberByName? = some (object, exported) ∧ index.Mistaken source object) ∧
    ∀ object, e.memberByName? = some (object, exported) → index.Mistaken source object →
      ¬ index.IsExport source exported e := by
  refine ⟨?_, fun object hmember hmistaken => hmistaken.not_isExport hmember⟩
  cases hmember : e.memberByName? with
  | none =>
    rw [referencesImport_of_not_member hmember]
    constructor
    · rintro ⟨what, h, hexport⟩
      rcases Imported.isExport_iff.1 hexport with htakes | ⟨-, rfl⟩
      · exact .inl (.imported h htakes)
      · exact absurd rfl hstar
    · rintro (h | ⟨object, hmember', -⟩)
      · cases h with
        | imported h htakes => exact ⟨_, h, Imported.isExport_iff.2 (.inl htakes)⟩
        | member hmember' => cases hmember.symm.trans hmember'
      · cases hmember'
  | some found =>
    obtain ⟨object, name⟩ := found
    rw [referencesImport_of_member hmember, referencesImport_star_iff]
    constructor
    · rintro ⟨rfl, h | h⟩
      · exact .inl (.member hmember h)
      · exact .inr ⟨object, rfl, h⟩
    · rintro (h | ⟨object', heq, h⟩)
      · cases h with
        | imported h => cases hmember.symm.trans h.memberByName?
        | member hmember' h =>
          cases hmember.symm.trans hmember'
          exact ⟨rfl, .inl h⟩
      · cases heq
        exact ⟨rfl, .inr h⟩

def isStarOfModule (index : Index) (e : Expr) : Bool :=
  e.memberByName?.any fun (star, f) => f == "f" && star.memberByName?.any fun (m, name) =>
    name == "*" && (index.isReference m &&
      (index.binding? m).any (·.kind == .imported "x" .wholeModule))

theorem mistaken_of_isStarOfModule (h : isStarOfModule index e) :
    ∃ star, e.memberByName? = some (star, "f") ∧ index.Mistaken "x" star := by
  obtain ⟨⟨star, f⟩, hmember, h⟩ := (Option.any_eq_true _ _).1 h
  simp only [Bool.and_eq_true, beq_iff_eq] at h
  obtain ⟨rfl, h⟩ := h
  obtain ⟨⟨m, name⟩, hstar, h⟩ := (Option.any_eq_true _ _).1 h
  simp only [Bool.and_eq_true, beq_iff_eq] at h
  obtain ⟨rfl, href, h⟩ := h
  obtain ⟨⟨x, kind, span⟩, hbinding, h⟩ := (Option.any_eq_true _ _).1 h
  obtain rfl := beq_iff_eq.1 h
  exact ⟨star, hmember, .member hstar ⟨href, x, span, hbinding⟩⟩

theorem isStarOfModule_tail : ∃ e ∈ (parseProgram "import * as m from 'x'; m['*'].f").value.nodes,
    isStarOfModule (.ofProgram (parseProgram "import * as m from 'x'; m['*'].f").value) e := by
  have h : (parseProgram "import * as m from 'x'; m['*'].f").value.nodes.any
      (isStarOfModule (.ofProgram (parseProgram "import * as m from 'x'; m['*'].f").value)) := by
    decide +kernel
  simpa using h

/-- It is read as a reference to the export `f`. -/
theorem referencesImport_star_tail :
    let p := (parseProgram "import * as m from 'x'; m['*'].f").value
    "f" ≠ "*" ∧ ∃ e ∈ p.nodes, ∃ star, e.memberByName? = some (star, "f") ∧
      (ofProgram p).Mistaken "x" star ∧ (ofProgram p).referencesImport "x" e "f" := by
  intro p
  obtain ⟨e, he, hstar⟩ := isStarOfModule_tail
  obtain ⟨star, hmember, hmistaken⟩ := mistaken_of_isStarOfModule hstar
  have hf : "f" ≠ "*" := by decide
  have h := (referencesImport_iff_isExport (ofProgram p) "x" e hf).1
  exact ⟨hf, e, he, star, hmember, hmistaken, h.2 (.inr ⟨star, hmember, hmistaken⟩)⟩

/-- It is not so that only exports are read as references to them: the property `*` of the module is
taken for the module. -/
theorem export_of_star_mistaken : ¬ ∀ (p : Program) (e : Expr), e ∈ p.nodes →
    ∀ source exported, exported ≠ "*" →
      ((ofProgram p).referencesImport source e exported ↔
        (ofProgram p).IsExport source exported e) := by
  intro h
  obtain ⟨e, he, hstar⟩ := isStarOfModule_tail
  obtain ⟨star, hmember, hmistaken⟩ := mistaken_of_isStarOfModule hstar
  refine hmistaken.not_isExport hmember ((h _ e he "x" "f" (by decide)).1 ?_)
  rw [referencesImport_of_member hmember, referencesImport_star_iff]
  exact ⟨rfl, .inr hmistaken⟩

end Index

end ScriptFold
