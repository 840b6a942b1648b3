import ScriptFold.Proofs.Evaluation.Visits

/-!
What is remembered does not show.

In a program that assigns to no variable, every evaluation of a node gives what the evaluation of
this node alone gives, whatever was evaluated before: the memory holds such answers only.
-/

namespace ScriptFold

namespace Evaluator

/-- The results of evaluating some nodes, one after another, also after faults. -/
def outcomes (v : Evaluator) : List Expr → List (Except Fault Answer)
  | [] => []
  | e :: rest => (v.evaluate e).1 :: (v.evaluate e).2.outcomes rest

/-- The memory has the variables of `v`, and for nodes of the program it has answers that `v` gives
for the nodes alone. -/
structure Sound (p : Program) (v : Evaluator) (m : Memory) : Prop where
  locals : m.locals = v.memory.locals
  answers : ∀ e ∈ p.nodes, ∀ a, m.memo.lookup e.id = some a → (v.evaluate e).1 = .ok a

namespace Sound

variable {p : Program} {v : Evaluator} {m : Memory} {e : Expr}

theorem start (p : Program) (hv : v.memory.memo = []) : Sound p v v.memory where
  locals := rfl
  answers d _ a h := by
    rw [hv] at h
    cases h

theorem noting (h : Sound p v m) (trace : List Event) : Sound p v { m with trace := trace } :=
  ⟨h.locals, h.answers⟩

theorem knowing (h : Sound p v m) (hp : p.Distinct) (he : e ∈ p.nodes) {a : Answer}
    (ha : (v.evaluate e).1 = .ok a) : Sound p v (m.knowing e a) where
  locals := h.locals
  answers d hd b hb := by
    rw [Memory.lookup_memo_knowing] at hb
    split at hb
    · rename_i hid
      obtain rfl := hp.eq_of_id_eq hd he hid
      cases hb
      exact ha
    · exact h.answers d hd b hb

end Sound

end Evaluator

open Evaluator (Sound)
open Evaluation (testOfNull)

namespace Evaluation

variable {p : Program} {v : Evaluator} {m n : Memory} {e : Expr}

/-- Both memories are sound; they may have answers for different nodes. -/
def BothSound (p : Program) (v : Evaluator) (m n : Memory) : Prop := Sound p v m ∧ Sound p v n

theorem answer_eq_alone (hp : p.Distinct) (hassign : ∀ e ∈ p.nodes, e.assigned? = none)
    (hv : v.memory.memo = []) (e : Expr) (he : e ∈ p.nodes) (m : Memory) (hm : Sound p v m) :
    ((answer v.setting e).run m).1 = (v.evaluate e).1 ∧
      Sound p v ((answer v.setting e).run m).2 := by
  induction e using Expr.below_induction generalizing m with
  | h e ih =>
    have halone : (v.evaluate e).1 = ((answer v.setting e).run v.memory).1 := rfl
    have hnone : v.memory.memo.lookup e.id = none := by rw [hv]; rfl
    cases hknown : m.memo.lookup e.id with
    | some a =>
      rw [run_answer_of_known hknown]
      exact ⟨(hm.answers e he a hknown).symm, hm⟩
    | none =>
      have hagree : Agree (BothSound p v) (m.asking e)
          (fresh v.setting e (ruleBy (answer v.setting) v.setting e))
          (fresh v.setting e (ruleBy (answer v.setting) v.setting e)) := by
        refine agree_fresh ?_ ?_ ?_ fun _ m₁ d hd n h => ?_
        · exact fun m n h => h.1.locals.trans h.2.locals.symm
        · exact fun m n notes h => ⟨h.1.noting _, h.2.noting _⟩
        · intro name hname
          rw [hassign e he] at hname
          cases hname
        · obtain ⟨hresult₁, hafter₁⟩ := ih d hd.below (hd.mem_nodes he) m₁ h.1
          obtain ⟨hresult, hafter⟩ := ih d hd.below (hd.mem_nodes he) n h.2
          exact ⟨hresult₁.trans hresult.symm, hafter₁, hafter⟩
      obtain ⟨hresult, hafter, -⟩ := hagree (v.memory.asking e)
        ⟨hm.noting _, (Sound.start p hv).noting _⟩
      rw [← result_answer_of_new hknown, ← result_answer_of_new hnone] at hresult
      have hsame : ((answer v.setting e).run m).1 = (v.evaluate e).1 := hresult
      refine ⟨hsame, ?_⟩
      rw [run_answer_of_new hknown] at hsame ⊢
      rcases hrun : (fresh v.setting e (ruleBy (answer v.setting) v.setting e)).run
        (m.asking e) with ⟨f | a, m₁⟩
      · rw [hrun] at hafter
        exact hafter
      · rw [hrun] at hafter hsame
        exact hafter.knowing hp he hsame.symm

end Evaluation

/-- **Evaluations do not disturb each other.** In a program without simple assignments to variables,
an evaluator that starts with an empty memo gives for each of a sequence of nodes, in any order and
with repetitions, the answer or the fault that it gives for the node alone. -/
theorem Evaluator.outcomes_eq_alone {p : Program} (hp : p.Distinct)
    (hassign : ∀ e ∈ p.nodes, e.assigned? = none) (v : Evaluator) (hv : v.memory.memo = [])
    (calls : List Expr) (hcalls : ∀ e ∈ calls, e ∈ p.nodes) :
    v.outcomes calls = calls.map fun e => (v.evaluate e).1 := by
  suffices ∀ m, Sound p v m → (⟨v.setting, m⟩ : Evaluator).outcomes calls =
      calls.map fun e => (v.evaluate e).1 from this v.memory (.start p hv)
  induction calls with
  | nil => exact fun _ _ => rfl
  | cons e rest ih =>
    intro m hm
    have he := hcalls e List.mem_cons_self
    obtain ⟨hresult, hafter⟩ := Evaluation.answer_eq_alone hp hassign hv e he m hm
    have hrest := ih (fun d hd => hcalls d (List.mem_cons_of_mem e hd)) _ hafter
    exact congrArg₂ List.cons hresult hrest

/-- The evaluation of `null.a ? true : false` ends in the same fault before and after its nodes were
evaluated. -/
theorem Evaluator.outcomes_around_fault :
    let v := Evaluator.new ⟨⟨[], []⟩, .nothing, none, 0⟩
    let calls := testOfNull :: (testOfNull.children ++ [testOfNull])
    (∃ f, (v.evaluate testOfNull).1 = .error f) ∧
      v.outcomes calls = calls.map fun e => (v.evaluate e).1 := by
  intro v calls
  have hp : (Program.ofExpr testOfNull).Distinct := by decide
  have hassign : ∀ e ∈ (Program.ofExpr testOfNull).nodes, e.assigned? = none := by decide
  have hcalls : ∀ e ∈ calls, e ∈ (Program.ofExpr testOfNull).nodes := by
    intro e he
    refine Program.mem_nodes_ofExpr.2 ?_
    obtain rfl | he := List.mem_cons.1 he
    · exact .refl
    obtain he | he := List.mem_append.1 he
    · exact .child he
    · rw [List.mem_singleton.1 he]
      exact .refl
  exact ⟨⟨_, rfl⟩, outcomes_eq_alone hp hassign v rfl calls hcalls⟩

end ScriptFold
