import ScriptFold.Proofs.Evaluation.Frame

/-!
What an evaluation depends on.

The evaluation of a node depends on the variables and on what is remembered for nodes within it. What
is remembered for other nodes does not show in it, and neither does what was done before.
-/

namespace ScriptFold.Evaluation

variable {s : Setting} {K : NodeId → Prop} {m m₁ n : Memory} {e : Expr}

/-- The memories have the same variables, and they remember the same but for identities in `K`. -/
structure SameBut (K : NodeId → Prop) (m n : Memory) : Prop where
  locals : m.locals = n.locals
  memo : ∀ id, ¬ K id → m.memo.lookup id = n.memo.lookup id

namespace SameBut

theorem of_eq (hlocals : m.locals = n.locals) (hmemo : m.memo = n.memo) : SameBut K m n :=
  ⟨hlocals, fun _ _ => by rw [hmemo]⟩

theorem assigned (h : SameBut K m n) (x : String) (a : Answer) :
    SameBut K (m.assigned x a) (n.assigned x a) where
  locals := by
    cases a with
    | none => exact h.locals
    | some c => exact congrArg (Assoc.put x c) h.locals
  memo id hid := by rw [Memory.memo_assigned, Memory.memo_assigned, h.memo id hid]

theorem knowing (h : SameBut K m n) (e : Expr) (a : Answer) :
    SameBut K (m.knowing e a) (n.knowing e a) where
  locals := h.locals
  memo id hid := by rw [Memory.lookup_memo_knowing, Memory.lookup_memo_knowing, h.memo id hid]

end SameBut

/-- What is remembered for other nodes does not show in an evaluation. -/
theorem agree_answer (e : Expr) (he : ∀ id, e.HasId id → ¬ K id) (m : Memory) :
    Agree (SameBut K) m (answer s e) (answer s e) := by
  induction e using Expr.below_induction generalizing m with
  | h e ih =>
    intro n hmn
    have hself := hmn.memo e.id (he e.id ⟨e, .refl, rfl⟩)
    cases hm : m.memo.lookup e.id with
    | some a =>
      rw [run_answer_of_known hm, run_answer_of_known (hself.symm.trans hm)]
      exact ⟨rfl, hmn⟩
    | none =>
      have hfresh : Agree (SameBut K) (m.asking e) (fresh s e (ruleBy (answer s) s e))
          (fresh s e (ruleBy (answer s) s e)) := by
        refine agree_fresh (fun _ _ h => h.locals) (fun _ _ _ h => ⟨h.locals, h.memo⟩)
          (fun x _ _ _ a h => h.assigned x a) fun _ m₁ d hd => ?_
        exact ih d hd.below (fun id hid => he id (hid.of_within hd.below.within)) m₁
      obtain ⟨hresult, hafter⟩ := hfresh (n.asking e) ⟨hmn.locals, hmn.memo⟩
      rw [run_answer_of_new hm, run_answer_of_new (hself.symm.trans hm)]
      rcases hrun : (fresh s e (ruleBy (answer s) s e)).run (m.asking e) with ⟨f | a, m₁⟩ <;>
        rcases hrun' : (fresh s e (ruleBy (answer s) s e)).run (n.asking e) with ⟨f' | b, n₁⟩ <;>
        rw [hrun, hrun'] at hresult hafter <;> cases hresult
      · exact ⟨rfl, hafter⟩
      · exact ⟨rfl, hafter.knowing e a⟩

theorem Gives.of_sameBut {a : Answer} (h : Gives m (answer s e) a m₁)
    (he : ∀ id, e.HasId id → ¬ K id) (hmn : SameBut K m n) :
    ∃ n₁, Gives n (answer s e) a n₁ ∧ SameBut K m₁ n₁ := by
  obtain ⟨hresult, hafter⟩ := agree_answer (s := s) e he m n hmn
  rw [h] at hresult hafter
  exact ⟨((answer s e).run n).2, Prod.ext hresult.symm rfl, hafter⟩

end ScriptFold.Evaluation

namespace ScriptFold.Evaluator

open Evaluation

variable {v : Evaluator} {d d' e : Expr} {a b : Answer} {m : Memory}

/-- Two nodes that are known one after another are so after the baseline was asked about a third. -/
theorem gives_after_asking (ha : (v.evaluate d).1 = .ok a)
    (hb : ((v.evaluate d).2.evaluate d').1 = .ok b) (e : Expr) :
    ∃ m₁ m₂, Gives (v.memory.asking e) (answer v.setting d) a m₁ ∧
      Gives m₁ (answer v.setting d') b m₂ := by
  have hasking : SameBut (fun _ => False) v.memory (v.memory.asking e) := .of_eq rfl rfl
  have hfirst : Gives v.memory (answer v.setting d) a (v.evaluate d).2.memory := Prod.ext ha rfl
  have hsecond : Gives (v.evaluate d).2.memory (answer v.setting d') b
      ((v.evaluate d).2.evaluate d').2.memory := Prod.ext hb rfl
  obtain ⟨m₁, hfirst', hsame⟩ := hfirst.of_sameBut (fun _ _ h => h) hasking
  obtain ⟨m₂, hsecond', -⟩ := hsecond.of_sameBut (fun _ _ h => h) hsame
  exact ⟨m₁, m₂, hfirst', hsecond'⟩

theorem evaluate_of_known (h : v.memory.memo.lookup e.id = some a) : v.evaluate e = (.ok a, v) := by
  unfold evaluate
  rw [run_answer_of_known (s := v.setting) h]

/-- The answer for a node is what its rule gives if nothing is remembered for the node and the
baseline does not know it. -/
theorem evaluate_of_rule (hnew : v.memory.memo.lookup e.id = none)
    (hbaseline : v.setting.baseline e = none)
    (h : Gives (v.memory.asking e) (ruleBy (answer v.setting) v.setting e) a m) :
    (v.evaluate e).1 = .ok a := by
  have hfresh := result_answer_of_new (s := v.setting) hnew
  rw [fresh_of_none hbaseline, h] at hfresh
  exact hfresh

end ScriptFold.Evaluator
