import ScriptFold.Fold
import ScriptFold.Proofs.Evaluation.Moments
import ScriptFold.Proofs.Literal.Recovery

/-!
Assignments to members.

An assignment to a member is not known, and its evaluation does nothing: variables hold the values
that they held before. So a member that is read later, through any variable that was not given another
value in between, has the value that it had before the assignment.
-/

namespace ScriptFold

open Evaluation

namespace Evaluation

variable {s : Setting} {m m₁ : Memory}

/-- The object of a member is evaluated after the property, and only if the key is known. -/
theorem Gives.member_parts {n : Node} {object property : Expr} {computed optional : Bool} {a : Answer}
    (h : Gives m (answer s (.member n object property computed optional)) a m₁)
    (hm : m.memo.lookup n.id = none)
    (hbaseline : s.baseline (.member n object property computed optional) = none) :
    let e : Expr := .member n object property computed optional
    ∃ k m₂, Gives (m.asking e) (answer s property) k m₂ ∧
      (s.keyOf computed property k = none ∧ a = none ∨
        ∃ key o m₃, s.keyOf computed property k = some key ∧ Gives m₂ (answer s object) o m₃ ∧
          a = o.map fun o => s.cell e (.member optional o.reading key.reading)) := by
  intro e
  rw [answer_eq] at h
  rcases gives_once.1 h with ⟨hknown, -⟩ | ⟨-, m₄, hrule, -⟩
  · have hnone := hm.symm.trans hknown
    cases hnone
  rw [fresh_of_none hbaseline] at hrule
  obtain ⟨k, m₂, hk, ⟨hkey, ha, -⟩ | ⟨key, o, hkey, ho, ha⟩⟩ := gives_ruleBy_member.1 hrule
  · exact ⟨k, m₂, hk, .inl ⟨hkey, ha⟩⟩
  · exact ⟨k, m₂, hk, .inr ⟨key, o, m₄, hkey, ho, ha⟩⟩

theorem gives_assign_of_not_name {n : Node} {op : AssignOp} {target value : Expr}
    (htarget : target.name? = none) (hm : m.memo.lookup n.id = none)
    (hbaseline : s.baseline (.assign n op target value) = none) :
    let d : Expr := .assign n op target value
    Gives m (answer s d) none ((m.asking d).knowing d none) := by
  intro d
  rw [answer_eq]
  refine gives_once.2 (.inr ⟨hm, m.asking d, ?_, rfl⟩)
  rw [fresh_of_none hbaseline]
  cases op with
  | simple =>
    cases target with
    | ident n name => cases htarget
    | _ => exact gives_pure.2 ⟨rfl, rfl⟩
  | _ => exact gives_pure.2 ⟨rfl, rfl⟩

end Evaluation

namespace Program

/-- The evaluation of the program comes to a node with the memory `m`. -/
def ComesTo (p : Program) (state? : Option Build.State) (m : Memory) (d : Expr) : Prop :=
  VisitsAll (.ofProgram p state?) .empty p.expressions m d

variable {p : Program} {state? : Option Build.State} {m₁ m₂ m₃ : Memory}

/-- **Members that are read after an assignment to a member.** The evaluation of a program comes to
an assignment whose target is no variable, and then to a member of a variable that holds the same as at
the assignment. The assignment is not known, and nothing else happens at it. The member is known if
its key is known, and it is then read from the value that the variable held before. -/
theorem read_after_member_assignment (hp : p.Distinct) {n : Node} {op : AssignOp}
    {target value : Expr} (htarget : target.name? = none)
    (hassignment : p.ComesTo state? m₁ (.assign n op target value))
    {n' k : Node} {x : String} {property : Expr} {computed optional : Bool}
    (hread : p.ComesTo state? m₂ (.member n' (.ident k x) property computed optional))
    (hafter : m₂.memo.lookup n.id ≠ none)
    (hvariable : (Setting.ofProgram p state?).baseline (.ident k x) = none)
    {c : Cell} (hx : m₁.locals.lookup x = some c) (hkept : p.Unassigned x m₁ m₃) {a : Answer} :
    let s := Setting.ofProgram p state?
    let d : Expr := .assign n op target value
    let e : Expr := .member n' (.ident k x) property computed optional
    Gives m₂ (answer s e) a m₃ →
      Gives m₁ (answer s d) none ((m₁.asking d).knowing d none) ∧
      a = (s.keyOf computed property (m₃.answer? property)).map fun key =>
        s.cell e (.member optional c.reading key.reading) := by
  intro s d e ha
  have hes : ∀ d ∈ p.expressions, d ∈ p.nodes := fun _ => mem_nodes_of_mem_expressions
  have he : e ∈ p.nodes := hread.mem_nodes hes
  have hunvisited : m₁.memo.lookup d.id = none := hassignment.unknown_of_distinct hp
  have hnew : m₂.memo.lookup e.id = none := hread.unknown_of_distinct hp
  have hbaseline : s.baseline e = none := Baseline.constant_of_not_name rfl
  have hlater : m₁.Later p m₂ := by
    rcases hassignment.total hp hes hread with hlater | hlater
    · exact hlater
    · exact absurd (hlater.grows.unknown hunvisited) hafter
  have hend : ((answer s e).run m₂).2 = m₃ := congrArg Prod.snd ha
  obtain ⟨key, m₄, hkey, hcases⟩ := ha.member_parts hnew hbaseline
  have hanswer := Operand.property.answer?_after hp he hnew hbaseline hkey
  rw [hend] at hanswer
  refine ⟨gives_assign_of_not_name htarget hunvisited (Baseline.constant_of_not_name rfl), ?_⟩
  rw [hanswer]
  rcases hcases with ⟨hnone, rfl⟩ | ⟨kc, o, m₅, hsome, ho, rfl⟩
  · rw [hnone]
    rfl
  · have hoperand : Operand s (m₂.asking e) e m₄ (.ident k x) := .object hkey (by rw [hsome]; rfl)
    have hunread := (hread.trans (.step hnew hbaseline hoperand .refl)).unknown_of_distinct hp
    have hvalue : o = m₄.locals.lookup x :=
      answer_ident_eq (fun id hid => by rw [List.mem_singleton.1 hid]; exact hunread) hvariable ho
    have hgrows : m₄.Grows m₃ := by
      have hobject := (hoperand.passes hp he hnew hbaseline).2
      rw [hend] at hobject
      exact ((later_answer hp (hoperand.mem_nodes he) m₄).trans hobject).grows
    have hlocal := (hlater.trans (hoperand.later hp he hnew hbaseline)).lookup_locals
      (hkept.of_grows hgrows)
    rw [hsome, hvalue, hlocal, hx]
    rfl

def memoryAfter (p : Program) (state? : Option Build.State) (count : Nat) : Memory :=
  ((answerAll (.ofProgram p state?) (p.expressions.take count)).run .empty).2

/-- If the statements before end without a fault, the evaluation comes to the next one. -/
theorem comesTo_memoryAfter {count : Nat} {d : Expr}
    (h : ((answerAll (.ofProgram p state?) (p.expressions.take count)).run .empty).1.toOption.isSome)
    (hd : p.expressions[count]? = some d) : p.ComesTo state? (p.memoryAfter state? count) d := by
  obtain ⟨hcount, hget⟩ := List.getElem?_eq_some_iff.1 hd
  have hsplit := List.take_append_drop count p.expressions
  rw [List.drop_eq_getElem_cons hcount, hget] at hsplit
  rw [ComesTo, ← hsplit]
  refine .of_answerAll ?_
  rcases hrun : (answerAll (.ofProgram p state?) (p.expressions.take count)).run .empty with
    ⟨f | u, m₁⟩
  · rw [hrun] at h
    cases h
  · rw [memoryAfter, hrun]
    exact hrun

def memberAssignment : Expr :=
  .assign ⟨10, .nowhere⟩ .simple
    (.member ⟨8, .nowhere⟩ (.ident ⟨6, .nowhere⟩ "o") (.ident ⟨7, .nowhere⟩ "a") false false)
    (.bool ⟨9, .nowhere⟩ false)

def memberRead : Expr :=
  .member ⟨13, .nowhere⟩ (.ident ⟨11, .nowhere⟩ "o") (.ident ⟨12, .nowhere⟩ "a") false false

def memberWritten : Program :=
  let object : Expr := .object ⟨4, .nowhere⟩ [.property ⟨3, .nowhere⟩ (.ident ⟨1, .nowhere⟩ "a")
    (.bool ⟨2, .nowhere⟩ true) false false]
  ⟨[.expr .nowhere (.assign ⟨5, .nowhere⟩ .simple (.ident ⟨0, .nowhere⟩ "o") object),
    .expr .nowhere memberAssignment, .expr .nowhere memberRead], .nowhere⟩

theorem comesTo_memberRead : memberWritten.ComesTo none (memberWritten.memoryAfter none 2) memberRead :=
  comesTo_memoryAfter (by decide +kernel) rfl

/-- In `o = { a: true }; o.a = false; o.a` the member is read from the first object. -/
theorem read_after_member_assignment_of_object :
    let s := Setting.ofProgram memberWritten none
    let m₁ := memberWritten.memoryAfter none 1
    let m₂ := memberWritten.memoryAfter none 2
    ∃ c a, memberWritten.ComesTo none m₁ memberAssignment ∧
      memberWritten.ComesTo none m₂ memberRead ∧ m₁.locals.lookup "o" = some c ∧
      ((answer s memberRead).run m₂).1 = .ok (some a) ∧
      a.reading = .member false c.reading (.ok (.string "a")) := by
  intro s m₁ m₂
  have hassignment : memberWritten.ComesTo none m₁ memberAssignment :=
    comesTo_memoryAfter (by decide +kernel) rfl
  obtain ⟨c, hc⟩ : ∃ c, m₁.locals.lookup "o" = some c :=
    Option.isSome_iff_exists.1 (by decide +kernel)
  have hsome : ((answer s memberRead).run m₂).1.toOption.any Option.isSome := by decide +kernel
  rcases hrun : (answer s memberRead).run m₂ with ⟨f | _ | a, m₃⟩
  · rw [hrun] at hsome
    cases hsome
  · rw [hrun] at hsome
    cases hsome
  have hm₃ : m₃ = ((answer s memberRead).run m₂).2 := (congrArg Prod.snd hrun).symm
  have hkept : memberWritten.Unassigned "o" m₁ m₃ := by
    rw [hm₃]
    decide +kernel
  have hkey : m₃.answer? (.ident ⟨12, .nowhere⟩ "a") = none := by
    rw [hm₃]
    exact Option.isNone_iff_eq_none.1 (by decide +kernel)
  obtain ⟨-, hread⟩ := read_after_member_assignment (p := memberWritten) (by decide) rfl hassignment
    comesTo_memberRead (by decide +kernel) (Option.isNone_iff_eq_none.1 (by decide +kernel)) hc
    hkept hrun
  rw [hkey] at hread
  cases hread
  exact ⟨c, _, hassignment, comesTo_memberRead, hc, rfl, rfl⟩

/-- It is not so that a member is unknown after an assignment to it, or has the new value. -/
theorem stale_member :
    (evaluateSource "o = { a: 1 }; o.a = 2; o.a" none).toOption.any (·.any (· == .number 1.0)) ∧
    ¬ ∀ (m₂ m₃ : Memory) (a : Answer), memberWritten.ComesTo none m₂ memberRead →
      Gives m₂ (answer (.ofProgram memberWritten none) memberRead) a m₃ →
      a = none ∨ ∃ c, a = some c ∧ c.reading = .ok (.bool false) := by
  refine ⟨by decide +kernel, fun h => ?_⟩
  let m₂ := memberWritten.memoryAfter none 2
  have hstale : ((answer (.ofProgram memberWritten none) memberRead).run m₂).1.toOption.any
      (·.any fun c => c.reading.toOption.any (· == .bool true)) := by
    decide +kernel
  rcases hrun : (answer (.ofProgram memberWritten none) memberRead).run m₂ with ⟨f | a, m₃⟩
  · rw [hrun] at hstale
    cases hstale
  · rw [hrun] at hstale
    rcases h m₂ m₃ a comesTo_memberRead hrun with rfl | ⟨c, rfl, hc⟩
    · cases hstale
    · have hvalue : (c.reading.toOption.any (· == .bool true)) = true := hstale
      rw [hc] at hvalue
      cases hvalue

end Program

end ScriptFold
