import ScriptFold.Proofs.Evaluation.Operands

/-!
The nodes that an evaluation comes to.

The evaluation of a node visits the node, and if nothing is known of it yet it visits what the
operands of the node visit. A fault at a visited node is the fault of the whole. What an evaluation
does to the memory is a sequence of steps at visited nodes: what all steps of the node and of its
operands do, the evaluation does (`answer_steps`).
-/

namespace ScriptFold.Evaluation

variable {s : Setting} {m m' m₁ m₂ : Memory} {d e : Expr}

/-! ## Runs of `once` -/

theorem run_once_of_known {rule : Evaluation Answer} {a : Answer}
    (h : m.memo.lookup e.id = some a) : (once s e rule).run m = (.ok a, m) :=
  gives_once.2 (.inl ⟨h, rfl⟩)

theorem run_once_of_new {rule : Evaluation Answer} (h : m.memo.lookup e.id = none) :
    (once s e rule).run m = match (fresh s e rule).run (m.asking e) with
      | (.ok a, m₁) => (.ok a, m₁.knowing e a)
      | (.error f, m₁) => (.error f, m₁) := by
  have hnote : Gives m (note (.asked e.nodeName)) () (m.asking e) := gives_note.2 rfl
  unfold once fresh
  rw [run_bind_of_gives (gives_remembered?.2 ⟨h, rfl⟩), run_bind_of_gives hnote]
  cases s.baseline e with
  | some reading => rfl
  | none =>
    dsimp only
    rw [run_bind]
    rcases rule.run (m.asking e) with ⟨f | a, m₁⟩ <;> rfl

theorem run_answer_of_known {a : Answer} (h : m.memo.lookup e.id = some a) :
    (answer s e).run m = (.ok a, m) := by
  rw [answer_eq, run_once_of_known h]

theorem run_answer_of_new (h : m.memo.lookup e.id = none) :
    (answer s e).run m = match (fresh s e (ruleBy (answer s) s e)).run (m.asking e) with
      | (.ok a, m₁) => (.ok a, m₁.knowing e a)
      | (.error f, m₁) => (.error f, m₁) := by
  rw [answer_eq, run_once_of_new h]

theorem result_answer_of_new (h : m.memo.lookup e.id = none) :
    ((answer s e).run m).1 = ((fresh s e (ruleBy (answer s) s e)).run (m.asking e)).1 := by
  rw [run_answer_of_new h]
  rcases (fresh s e (ruleBy (answer s) s e)).run (m.asking e) with ⟨f | a, m₁⟩ <;> rfl

theorem run_answer_error_iff (h : m.memo.lookup e.id = none) {f : Fault} :
    (answer s e).run m = (.error f, m') ↔
      (fresh s e (ruleBy (answer s) s e)).run (m.asking e) = (.error f, m') := by
  rw [run_answer_of_new h]
  rcases (fresh s e (ruleBy (answer s) s e)).run (m.asking e) with ⟨f' | a, m₁⟩
  · exact Iff.rfl
  · constructor <;> rintro ⟨⟩

/-! ## Visits -/

/-- `Visits s m e m₁ d`: the evaluation of `e` from the memory `m` comes to the node `d` with the
memory `m₁`. The rule for a node is followed only if nothing is remembered for the node and the
baseline does not know it. -/
inductive Visits (s : Setting) : Memory → Expr → Memory → Expr → Prop
  | refl {m : Memory} {e : Expr} : Visits s m e m e
  | step {m m₁ m₂ : Memory} {d d' e : Expr} (hnew : m.memo.lookup e.id = none)
    (hbaseline : s.baseline e = none) (hoperand : Operand s (m.asking e) e m₁ d)
    (h : Visits s m₁ d m₂ d') : Visits s m e m₂ d'

theorem Operand.error (hnew : m.memo.lookup e.id = none) (hbaseline : s.baseline e = none)
    (h : Operand s (m.asking e) e m₁ d) {f : Fault} (hd : (answer s d).run m₁ = (.error f, m₂)) :
    (answer s e).run m = (.error f, m₂) := by
  rw [run_answer_error_iff hnew, fresh_of_none hbaseline]
  exact h.continues.error hd

theorem Visits.error (h : Visits s m e m₁ d) {f : Fault}
    (hd : (answer s d).run m₁ = (.error f, m₂)) : (answer s e).run m = (.error f, m₂) := by
  induction h with
  | refl => exact hd
  | step hnew hbaseline hoperand _ ih => exact hoperand.error hnew hbaseline (ih hd)

def testOfNull : Expr :=
  .conditional ⟨5, .nowhere⟩
    (.member ⟨2, .nowhere⟩ (.null ⟨0, .nowhere⟩) (.ident ⟨1, .nowhere⟩ "a") false false)
    (.bool ⟨3, .nowhere⟩ true) (.bool ⟨4, .nowhere⟩ false)

/-! ## Steps -/

/-- The steps in the evaluation of a node before its answer is remembered: each of them changes the
memory as `R` says. -/
structure Steps (R : Memory → Memory → Prop) (s : Setting) (m : Memory) (e : Expr) : Prop where
  note : ∀ m₁ notes, R m₁ { m₁ with trace := notes ++ m₁.trace }
  operand : s.baseline e = none → ∀ m₁ d, Operand s (m.asking e) e m₁ d →
    R m₁ ((answer s d).run m₁).2
  assigned : ∀ name, e.assigned? = some name → ∀ a m₁, R m₁ (m₁.assigned name a)

section

variable {R : Memory → Memory → Prop} (hrefl : ∀ m, R m m)
  (htrans : ∀ m m₁ m₂, R m m₁ → R m₁ m₂ → R m m₂)

include hrefl htrans

theorem Steps.rule (h : Steps R s m e) (hbaseline : s.baseline e = none) :
    R (m.asking e) ((ruleBy (answer s) s e).run (m.asking e)).2 := by
  refine @ruleBy_holds s (m.asking e) e _ (answer s) (composes_of_steps hrefl htrans)
    (h.operand hbaseline) ?_ ?_ ?_
  · exact fun _ name _ => hrefl _
  · intro _ callee _ _ _
    obtain ⟨result, called, hrun⟩ := run_call s e callee
    rw [hrun]
    exact h.note (m.asking e) _
  · intro _ _ name value heq hvalue
    refine (composes_of_steps hrefl htrans).bind (f := fun a => do assign name a; return a)
      (g := fun a => do assign name a; return a) (y := answer s value) hvalue fun a m₁ _ => ?_
    rw [run_assign]
    exact h.assigned name (by rw [heq]; rfl) a m₁

theorem Steps.fresh (h : Steps R s m e) :
    R m ((fresh s e (ruleBy (answer s) s e)).run (m.asking e)).2 := by
  refine htrans m _ _ (h.note m [.asked e.nodeName]) ?_
  cases hbaseline : s.baseline e with
  | some reading =>
    rw [fresh_of_some hbaseline]
    exact hrefl _
  | none =>
    rw [fresh_of_none hbaseline]
    exact h.rule hrefl htrans hbaseline

theorem answer_steps (h : m.memo.lookup e.id = none → Steps R s m e)
    (hknowing : m.memo.lookup e.id = none → ∀ a m₁,
      Gives (m.asking e) (fresh s e (ruleBy (answer s) s e)) a m₁ → R m m₁ →
      R m (m₁.knowing e a)) :
    R m ((answer s e).run m).2 := by
  cases hm : m.memo.lookup e.id with
  | some a =>
    rw [run_answer_of_known hm]
    exact hrefl m
  | none =>
    have hfresh := (h hm).fresh hrefl htrans
    rw [run_answer_of_new hm]
    rcases hrun : (fresh s e (ruleBy (answer s) s e)).run (m.asking e) with ⟨f | a, m₁⟩
    · rw [hrun] at hfresh
      exact hfresh
    · rw [hrun] at hfresh
      exact hknowing hm a m₁ hrun hfresh

end

end ScriptFold.Evaluation
