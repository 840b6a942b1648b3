import ScriptFold.Proofs.Evaluation.Frame

/-!
Faults last.

An evaluation that ends in a fault remembers the answers that it has found by then, and nothing for
the nodes that it has not finished. Any later evaluation of the node finds these answers again, so
it takes the same way to the same fault, whatever values the variables have by then. And since
the unfinished nodes end in the fault too whenever they are evaluated, nothing is ever remembered
for them.
-/

namespace ScriptFold

namespace Evaluation

variable {α β : Type} {s : Setting} {p : Program} {m m' n : Memory} {X Y : List Expr} {f : Fault}
  {d e : Expr}

def Unknown (X : List Expr) (m : Memory) : Prop := ∀ d ∈ X, m.memo.lookup d.id = none

theorem unknown_nil (m : Memory) : Unknown [] m := List.forall_mem_nil _

/-- A computation has the same result from every memory that has the answers of `m` and none for the
nodes `X`, and leaves all answers and variables as they are. -/
def Settled (m : Memory) (X : List Expr) (result : Except Fault α) (x : Evaluation α) : Prop :=
  ∀ n, m.Grows n → Unknown X n → ∃ trace, x.run n = (result, { n with trace := trace })

namespace Settled

variable {x : Evaluation α} {g : α → Evaluation β}

theorem mono {result : Except Fault α} (h : Settled m X result x) (hm : m.Grows m') (hX : X ⊆ Y) :
    Settled m' Y result x :=
  fun n hn hY => h n (hm.trans hn) fun d hd => hY d (hX hd)

theorem bind {a : α} {result : Except Fault β} (h : Settled m [] (.ok a) x)
    (hg : Settled m X result (g a)) : Settled m X result (x >>= g) := by
  intro n hn hX
  obtain ⟨trace, hx⟩ := h n hn (unknown_nil n)
  obtain ⟨trace', hrun⟩ := hg { n with trace := trace } hn hX
  exact ⟨trace', by rw [run_bind, hx]; exact hrun⟩

theorem bind_fault (h : Settled m X (.error f) x) : Settled m X (.error f) (x >>= g) := by
  intro n hn hX
  obtain ⟨trace, hx⟩ := h n hn hX
  exact ⟨trace, by rw [run_bind, hx]⟩

end Settled

/-- The unfinished nodes after a fault: nothing is remembered for them, and while this is so each of
them ends in the fault. -/
def Sunk (p : Program) (s : Setting) (m : Memory) (X : List Expr) (f : Fault) : Prop :=
  ∀ d ∈ X, d ∈ p.nodes ∧ m.memo.lookup d.id = none ∧ Settled m X (.error f) (answer s d)

theorem sunk_nil (p : Program) (s : Setting) (m : Memory) (f : Fault) : Sunk p s m [] f :=
  List.forall_mem_nil _

theorem Sunk.cons (hX : Sunk p s m X f) (he : e ∈ p.nodes) (hself : m.memo.lookup e.id = none)
    (hnode : Settled m (e :: X) (.error f) (answer s e)) : Sunk p s m (e :: X) f := by
  intro d hd
  obtain rfl | hd := List.mem_cons.1 hd
  · exact ⟨he, hself, hnode⟩
  · obtain ⟨hd, hunknown, hstuck⟩ := hX d hd
    exact ⟨hd, hunknown, hstuck.mono (.refl m) (List.subset_cons_self e X)⟩

/-- If a computation ends in a fault, it does so for good. -/
structure Lasts (p : Program) (s : Setting) (m : Memory) (x : Evaluation α) : Prop where
  grows : m.Grows (x.run m).2
  fault : ∀ f m', x.run m = (.error f, m') → ∃ X, Sunk p s m' X f ∧ Settled m' X (.error f) x

theorem Lasts.grows_to {x : Evaluation α} {result : Except Fault α} (h : Lasts p s m x)
    (hx : x.run m = (result, m')) : m.Grows m' := by
  have hgrows := h.grows
  rw [hx] at hgrows
  exact hgrows

/-- A computation has the same result again for good. -/
structure Replays (p : Program) (s : Setting) (m : Memory) (x : Evaluation α) : Prop
    extends Lasts p s m x where
  ok : ∀ a m', Gives m x a m' → Settled m' [] (.ok a) x

theorem composes_replays (p : Program) (s : Setting) :
    Composes fun _ m x _ => Replays p s m x where
  pure m a := {
    grows := .refl m
    fault := fun f m' h => by cases h
    ok := fun b m' h n _ _ => by
      obtain ⟨rfl, -⟩ := gives_pure.1 h
      exact ⟨n.trace, rfl⟩ }
  read m c := by
    unfold read
    cases c.reading with
    | ok v => exact {
        grows := .refl m
        fault := fun f m' h => by cases h
        ok := fun b m' h n _ _ => by
          obtain ⟨rfl, -⟩ := gives_pure.1 h
          exact ⟨n.trace, rfl⟩ }
    | error fault => exact {
        grows := .refl m
        fault := fun f m' h => by
          cases h
          exact ⟨[], sunk_nil p s _ _, fun n _ _ => ⟨n.trace, rfl⟩⟩
        ok := fun b m' h => absurd h gives_throw }
  bind {_ _ m x y g g'} h hg := by
    rcases hx : x.run m with ⟨fault | a, m₁⟩
    · have hrun : (x >>= g).run m = (.error fault, m₁) := by rw [run_bind, hx]
      refine { grows := ?_, fault := fun f m' hf => ?_, ok := fun b m' hb => ?_ }
      · rw [hrun]
        exact h.grows_to hx
      · cases hrun.symm.trans hf
        obtain ⟨X, hX, hsettled⟩ := h.fault _ _ hx
        exact ⟨X, hX, hsettled.bind_fault⟩
      · cases hrun.symm.trans hb
    · have hrun : (x >>= g).run m = (g a).run m₁ := run_bind_of_gives hx
      have hafter := hg a m₁ hx
      refine { grows := ?_, fault := fun f m' hf => ?_, ok := fun b m' hb => ?_ }
      · rw [hrun]
        exact (h.grows_to hx).trans hafter.grows
      · rw [hrun] at hf
        obtain ⟨X, hX, hsettled⟩ := hafter.fault f m' hf
        have hagain := (h.ok a m₁ hx).mono (hafter.grows_to hf) (List.Subset.refl _)
        exact ⟨X, hX, hagain.bind hsettled⟩
      · have hb : Gives m₁ (g a) b m' := hrun.symm.trans hb
        have hagain := (h.ok a m₁ hx).mono (hafter.grows_to hb) (List.Subset.refl _)
        exact hagain.bind (hafter.ok b m' hb)

/-- The rule for an assignment writes the variable again when it is followed again, but only if it
does not end in a fault. -/
theorem lasts_assigning {x : Evaluation Answer} {name : String} (h : Replays p s m x) :
    Lasts p s m (x >>= fun a => do assign name a; return a) := by
  rcases hx : x.run m with ⟨fault | a, m₁⟩
  · have hrun : (x >>= fun a => do assign name a; return a).run m = (.error fault, m₁) := by
      rw [run_bind, hx]
    refine ⟨?_, fun f m' hf => ?_⟩
    · rw [hrun]
      exact h.grows_to hx
    · cases hrun.symm.trans hf
      obtain ⟨X, hX, hsettled⟩ := h.fault _ _ hx
      exact ⟨X, hX, hsettled.bind_fault⟩
  · have hrun : (x >>= fun a => do assign name a; return a).run m =
        (.ok a, m₁.assigned name a) := by
      rw [run_bind_of_gives hx, run_assign]
    refine ⟨?_, fun f m' hf => ?_⟩
    · rw [hrun]
      exact (h.grows_to hx).trans (.assigned name a)
    · cases hrun.symm.trans hf

theorem lasts_rule (hoperand : ∀ m₁ d, Operand s m e m₁ d → Replays p s m₁ (answer s d)) :
    Lasts p s m (ruleBy (answer s) s e) := by
  -- The variable of a read may have another value later, but a read does not end in a fault.
  by_cases hident : ∃ n name, e = .ident n name
  · obtain ⟨n, name, rfl⟩ := hident
    exact ⟨.refl m, fun f m' h => by cases h⟩
  by_cases hassign : ∃ n n' name value, e = .assign n .simple (.ident n' name) value
  · obtain ⟨n, n', name, value, rfl⟩ := hassign
    exact lasts_assigning (hoperand m value .assigned)
  have hreplays := @ruleBy_holds s m e _ (answer s) (composes_replays p s) hoperand
    (fun n name he => absurd ⟨n, name, he⟩ hident)
    (fun n callee xs optional he => ?_)
    (fun n n' name value he => absurd ⟨n, n', name, value, he⟩ hassign)
  · exact hreplays.toLasts
  · obtain ⟨result, called, hrun⟩ := run_call s e callee
    refine { grows := ?_, fault := fun f m' hf => ?_, ok := fun a m' ha n _ _ => ?_ }
    · rw [hrun]
      exact .refl m
    · rw [hrun] at hf
      cases hf
      exact ⟨[], sunk_nil p s _ _, fun n _ _ => ⟨_, hrun n⟩⟩
    · cases (hrun m).symm.trans ha
      exact ⟨_, hrun n⟩

theorem lasts_fresh (hoperand : ∀ m₁ d, Operand s m e m₁ d → Replays p s m₁ (answer s d)) :
    Lasts p s m (fresh s e (ruleBy (answer s) s e)) := by
  cases hbaseline : s.baseline e with
  | some reading =>
    rw [fresh_of_some hbaseline]
    exact ((composes_replays p s).pure m _).toLasts
  | none =>
    rw [fresh_of_none hbaseline]
    exact lasts_rule hoperand

theorem replays_answer (hp : p.Distinct) (e : Expr) (he : e ∈ p.nodes) (m : Memory) :
    Replays p s m (answer s e) := by
  induction e using Expr.below_induction generalizing m with
  | h e ih =>
    refine {
      grows := (frame_answer hp e he m).kept
      fault := fun f m' hf => ?_
      ok := fun a m' ha n hn _ => ?_ }
    · have hself : m'.memo.lookup e.id = none := by
        have hself := lookup_memo_self (s := s) hp he m
        rw [hf] at hself
        exact hself
      cases hm : m.memo.lookup e.id with
      | some a =>
        rw [run_answer_of_known hm] at hf
        cases hf
      | none =>
        have hfresh : Lasts p s (m.asking e) (fresh s e (ruleBy (answer s) s e)) :=
          lasts_fresh fun m₁ d hd => ih d hd.below (hd.mem_nodes he) m₁
        obtain ⟨X, hX, hsettled⟩ := hfresh.fault f m' ((run_answer_error_iff hm).1 hf)
        -- The node itself is unfinished, too.
        have hnode : Settled m' (e :: X) (.error f) (answer s e) := by
          intro n hn hunknown
          obtain ⟨trace, hfault⟩ := hsettled (n.asking e) hn
            fun d hd => hunknown d (List.mem_cons_of_mem e hd)
          exact ⟨trace, (run_answer_error_iff (hunknown e List.mem_cons_self)).2 hfault⟩
        exact ⟨e :: X, hX.cons he hself hnode, hnode⟩
    · have hself := lookup_memo_self (s := s) hp he m
      rw [ha] at hself
      exact ⟨n.trace, run_answer_of_known (hn e.id a hself)⟩

theorem unknown_answer (hp : p.Distinct) (hX : Sunk p s m X f) (e : Expr) (he : e ∈ p.nodes)
    (n : Memory) (hn : m.Grows n ∧ Unknown X n) :
    m.Grows ((answer s e).run n).2 ∧ Unknown X ((answer s e).run n).2 := by
  induction e using Expr.below_induction generalizing n with
  | h e ih =>
    refine answer_steps
      (R := fun n n' => m.Grows n ∧ Unknown X n → m.Grows n' ∧ Unknown X n') (fun _ h => h)
      (fun _ _ _ h h' hn => h' (h hn)) (fun _ => ?_) (fun hnone a m₁ hrun hafter hn => ?_) hn
    · exact {
        note := fun _ _ h => h
        operand := fun _ m₁ d hd => ih d hd.below (hd.mem_nodes he) m₁
        assigned := fun name _ a m₁ h =>
          ⟨h.1.trans (.assigned name a), fun d hd => by rw [Memory.memo_assigned, h.2 d hd]⟩ }
    · have hnew := lookup_memo_fresh_self (s := s) hp he hnone
      rw [hrun] at hnew
      obtain ⟨hgrows, hunknown⟩ := hafter hn
      refine ⟨hgrows.trans (.knowing hnew a), fun d hd => ?_⟩
      · rw [Memory.lookup_memo_knowing, if_neg, hunknown d hd]
        -- An unfinished node has no answer.
        intro hid
        obtain ⟨hdp, -, hstuck⟩ := hX d hd
        obtain rfl := hp.eq_of_id_eq hdp he hid
        obtain ⟨trace, hfault⟩ := hstuck n hn.1 hn.2
        rw [run_answer_of_new hnone, hrun] at hfault
        cases hfault

end Evaluation

/-! ## Later evaluators -/

open Evaluation (testOfNull)

/-- `Later p v w`: the evaluator `v` becomes `w` when some nodes of the program are evaluated and
variables are given any values. -/
inductive Evaluator.Later (p : Program) (v : Evaluator) : Evaluator → Prop
  | refl : Later p v v
  | evaluate {w : Evaluator} {d : Expr} (h : Later p v w) (hd : d ∈ p.nodes) :
    Later p v (w.evaluate d).2
  | locals {w : Evaluator} (h : Later p v w) (locals : List (String × Cell)) :
    Later p v ⟨w.setting, { w.memory with locals := locals }⟩

theorem Evaluator.Later.unknown {p : Program} (hp : p.Distinct) {v w : Evaluator} {X : List Expr}
    {f : Fault} (hX : Evaluation.Sunk p v.setting v.memory X f) (h : v.Later p w) :
    w.setting = v.setting ∧ v.memory.Grows w.memory ∧ Evaluation.Unknown X w.memory := by
  induction h with
  | refl => exact ⟨rfl, .refl v.memory, fun d hd => (hX d hd).2.1⟩
  | @evaluate w d _ hd ih =>
    obtain ⟨hsetting, hgrows, hunknown⟩ := ih
    have hafter := Evaluation.unknown_answer hp hX d hd w.memory ⟨hgrows, hunknown⟩
    rw [← hsetting] at hafter
    exact ⟨hsetting, hafter⟩
  | locals _ _ ih => exact ih

/-- **Faults last.** Let `e` be a node of a program. If the evaluation of a node that the evaluation
of `e` comes to ends in a fault, the evaluation of `e` ends in this fault. If the evaluation of `e`
ends in a fault, then so does every later one, whatever was evaluated and whatever values were given
to variables in between; and the later one leaves all answers and variables as they are. -/
theorem Evaluator.fault_lasts {p : Program} (hp : p.Distinct) (v : Evaluator) {e : Expr}
    (he : e ∈ p.nodes) :
    (∀ m d f, Evaluation.Visits v.setting v.memory e m d →
      ((⟨v.setting, m⟩ : Evaluator).evaluate d).1 = .error f → (v.evaluate e).1 = .error f) ∧
    ∀ f w, (v.evaluate e).1 = .error f → (v.evaluate e).2.Later p w →
      (w.evaluate e).1 = .error f ∧ (w.evaluate e).2.memory.memo = w.memory.memo ∧
        (w.evaluate e).2.memory.locals = w.memory.locals := by
  refine ⟨fun m d f hvisits hfault => ?_, fun f w hfault hlater => ?_⟩
  · have hd : (Evaluation.answer v.setting d).run m =
        (.error f, ((⟨v.setting, m⟩ : Evaluator).evaluate d).2.memory) := Prod.ext hfault rfl
    exact congrArg Prod.fst (hvisits.error hd)
  · have hrun : (Evaluation.answer v.setting e).run v.memory =
        (.error f, (v.evaluate e).2.memory) := Prod.ext hfault rfl
    obtain ⟨X, hX, hsettled⟩ := (Evaluation.replays_answer hp e he v.memory).fault f _ hrun
    obtain ⟨hsetting, hgrows, hunknown⟩ := hlater.unknown hp hX
    obtain ⟨trace, hagain⟩ := hsettled w.memory hgrows hunknown
    rw [← show w.setting = v.setting from hsetting] at hagain
    have hevaluate : w.evaluate e =
        (.error f, ⟨w.setting, { w.memory with trace := trace }⟩) := by
      unfold evaluate
      rw [hagain]
    rw [hevaluate]
    exact ⟨rfl, rfl, rfl⟩

/-- The fault of `null.a ? true : false` is the fault of `[x, null.a ? true : false]`, also after `x`
was given a value. -/
theorem Evaluator.fault_lasts_in_array :
    let v := Evaluator.new ⟨⟨[], []⟩, .nothing, none, 0⟩
    let e : Expr := .array ⟨7, .nowhere⟩ [some (.ident ⟨6, .nowhere⟩ "x"), some testOfNull]
    let v' := (v.evaluate e).2
    let w : Evaluator := ⟨v'.setting, { v'.memory with locals := [("x", ⟨.given 0, .ok .null⟩)] }⟩
    ∃ f, (v.evaluate testOfNull).1 = .error f ∧ (v.evaluate e).1 = .error f ∧
      (w.evaluate e).1 = .error f ∧ (w.evaluate e).2.memory.memo = w.memory.memo := by
  intro v e v' w
  have hp : (Program.ofExpr e).Distinct := by decide
  obtain ⟨hvisited, hlater⟩ := fault_lasts hp v (Program.mem_nodes_ofExpr.2 .refl)
  have hfault : (v.evaluate testOfNull).1 = .error _ := rfl
  have hnode := hvisited _ testOfNull _ (.step rfl rfl (.element (.later rfl .here)) .refl) rfl
  obtain ⟨hagain, hmemo, -⟩ := hlater _ w hnode (.locals .refl _)
  exact ⟨_, hfault, hnode, hagain, hmemo⟩

end ScriptFold
