import ScriptFold.Proofs.Evaluation.Requests

/-!
What is remembered for one node.

An evaluator is asked for nodes of a program again and again. Memories only grow: answers stay, and
a variable that has a value keeps some value. So what the rule for a node establishes of its answer,
and what a growing memory cannot undo, holds of the answer that is remembered for the node at any
time.
-/

namespace ScriptFold

/-- All that `m` remembers, `n` remembers too, and what has a value in `m` has some value in `n`. -/
structure Memory.Extends (m n : Memory) : Prop where
  grows : m.Grows n
  locals : ∀ x, (m.locals.lookup x).isSome → (n.locals.lookup x).isSome

namespace Memory.Extends

variable {m m₁ m₂ : Memory}

theorem refl (m : Memory) : m.Extends m := ⟨.refl m, fun _ h => h⟩

theorem trans (h : m.Extends m₁) (h' : m₁.Extends m₂) : m.Extends m₂ :=
  ⟨h.grows.trans h'.grows, fun x hx => h'.locals x (h.locals x hx)⟩

theorem assigned (x : String) (a : Answer) : m.Extends (m.assigned x a) where
  grows := .assigned x a
  locals y hy := by
    rw [lookup_locals_assigned]
    split
    · rename_i h
      exact h.2
    · exact hy

theorem knowing {e : Expr} (hm : m.memo.lookup e.id = none) (a : Answer) :
    m.Extends (m.knowing e a) := ⟨.knowing hm a, fun _ h => h⟩

end Memory.Extends

namespace Evaluation

variable {s : Setting} {p : Program} {m m₁ : Memory} {d e : Expr} {Q : Answer → Memory → Prop}

/-- The answer that is remembered for a node, if there is one, has a property in the memory. -/
def Remembers (Q : Answer → Memory → Prop) (e : Expr) (m : Memory) : Prop :=
  ∀ a, m.memo.lookup e.id = some a → Q a m

/-- The rule for a node establishes the property of its answer, and the baseline does not know the
node. -/
structure Establishes (s : Setting) (e : Expr) (Q : Answer → Memory → Prop) : Prop where
  baseline : s.baseline e = none
  rule : ∀ {m a m₁}, Gives m (ruleBy (answer s) s e) a m₁ → Q a m₁

theorem remembers_of_unknown (h : m.memo.lookup e.id = none) : Remembers Q e m := by
  intro a ha
  cases h.symm.trans ha

theorem extends_answer (hp : p.Distinct) (hd : d ∈ p.nodes) (m : Memory) :
    m.Extends ((answer s d).run m).2 := by
  induction d using Expr.below_induction generalizing m with
  | h d ih =>
    refine answer_steps .refl (fun _ _ _ => .trans) (fun _ => ?_) fun hnew a m₁ hrun h => ?_
    · exact {
        note := fun m₁ notes => ⟨.refl m₁, fun _ h => h⟩
        operand := fun _ m₁ c hc => ih c hc.below (hc.mem_nodes hd) m₁
        assigned := fun name _ a m₁ => .assigned name a }
    · have hself := lookup_memo_fresh_self (s := s) hp hd hnew
      rw [hrun] at hself
      exact h.trans (.knowing hself a)

variable (hstays : ∀ {a m m₁}, m.Extends m₁ → Q a m → Q a m₁)
include hstays

theorem Remembers.of_extends (h : Remembers Q e m) (hm : m.Extends m₁)
    (hsame : m₁.memo.lookup e.id = m.memo.lookup e.id) : Remembers Q e m₁ :=
  fun a ha => hstays hm (h a (hsame.symm.trans ha))

/-- One evaluation keeps what is remembered for a node of the kind that its rule establishes. -/
theorem remembers_answer (hp : p.Distinct) (he : e ∈ p.nodes) (hrule : Establishes s e Q)
    (hd : d ∈ p.nodes) (h : Remembers Q e m) : Remembers Q e ((answer s d).run m).2 := by
  induction d using Expr.below_induction generalizing m with
  | h d ih =>
    refine answer_steps (R := fun m m' => Remembers Q e m → Remembers Q e m') (fun _ h => h)
      (fun _ _ _ h h' hm => h' (h hm)) (fun _ => ?_) (fun hnew a m₁ hrun h => ?_) h
    · exact {
        note := fun m₁ notes h => h.of_extends hstays ⟨.refl m₁, fun _ h => h⟩ rfl
        operand := fun _ m₁ c hc => ih c hc.below (hc.mem_nodes hd)
        assigned := fun name _ a m₁ h =>
          h.of_extends hstays (.assigned name a) (by rw [Memory.memo_assigned]) }
    · have hself := lookup_memo_fresh_self (s := s) hp hd hnew
      rw [hrun] at hself
      have hknowing : m₁.Extends (m₁.knowing d a) := .knowing hself a
      intro hm
      by_cases hid : e.id = d.id
      · -- The answer for the node itself is the one that its rule has just given.
        obtain rfl : e = d := hp.eq_of_id_eq he hd hid
        rw [fresh_of_none hrule.baseline] at hrun
        intro b hb
        rw [Memory.lookup_memo_knowing, if_pos rfl] at hb
        obtain rfl := Option.some.inj hb
        exact hstays hknowing (hrule.rule hrun)
      · refine (h hm).of_extends hstays hknowing ?_
        rw [Memory.lookup_memo_knowing, if_neg hid]

theorem remembers_afterAll (hp : p.Distinct) (he : e ∈ p.nodes) {requests : List Request}
    (hnodes : ∀ r ∈ requests, r.node ∈ p.nodes)
    (hrequests : ∀ r ∈ requests, Establishes r.setting e Q) (h : Remembers Q e m) :
    Remembers Q e (m.afterAll requests) :=
  Memory.afterAll_induction h fun _ r hr =>
    remembers_answer hstays hp he (hrequests r hr) (hnodes r hr)

end Evaluation

end ScriptFold
