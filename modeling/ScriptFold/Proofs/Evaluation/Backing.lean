import ScriptFold.Proofs.Evaluation.Order
import ScriptFold.Proofs.Evaluation.Requests
import ScriptFold.Proofs.Literal.Recovery

/-!
Variables and the assignments that are remembered.

An evaluator remembers answers in the order in which it finds them. A variable either has the value
that it had at the start, and no known assignment to it is remembered, or it has the cell of the
known assignment to it that was remembered last, and this is the cell of the right operand of the
assignment. The variable is given its value before the assignment is remembered, but nothing ends
in between, so that this holds after every request and at every operand that a rule comes to.
-/

namespace ScriptFold

theorem Expr.exists_of_assigned? {e : Expr} {x : String} (h : e.assigned? = some x) :
    ∃ n n' value, e = .assign n .simple (.ident n' x) value := by
  unfold assigned? at h
  split at h <;> cases h
  exact ⟨_, _, _, rfl⟩

/-! ## The order of answers -/

theorem Memory.memo_knowing_of_new {m : Memory} {e : Expr} (hm : m.memo.lookup e.id = none)
    (a : Answer) : (m.knowing e a).memo = m.memo ++ [(e.id, a)] := by
  refine Assoc.put_of_not_mem fun hmem => ?_
  obtain ⟨entry, hentry, hid⟩ := List.mem_map.1 hmem
  have hne := List.lookup_eq_none_iff.1 hm entry hentry
  rw [hid] at hne
  simp at hne

namespace Evaluation

variable {s : Setting} {p : Program} {m m₁ : Memory} {e : Expr}

theorem memo_prefix_answer (hp : p.Distinct) (he : e ∈ p.nodes) (m : Memory) :
    m.memo <+: ((answer s e).run m).2.memo := by
  induction e using Expr.below_induction generalizing m with
  | h e ih =>
    refine answer_steps (R := fun m m' => m.memo <+: m'.memo) (fun _ => List.prefix_rfl)
      (fun _ _ _ h h' => h.trans h') (fun _ => ?_) fun hm a m₁ hrun h => ?_
    · exact {
        note := fun _ _ => List.prefix_rfl
        operand := fun _ m₁ d hd => ih d hd.below (hd.mem_nodes he) m₁
        assigned := fun name _ a m₁ => by rw [Memory.memo_assigned] }
    · have hself := lookup_memo_fresh_self (s := s) hp he hm
      rw [hrun] at hself
      rw [Memory.memo_knowing_of_new hself]
      exact h.trans (List.prefix_append ..)

end Evaluation

theorem Memory.memo_prefix_afterAll {p : Program} (hp : p.Distinct) (m : Memory)
    {requests : List Request} (hnodes : ∀ r ∈ requests, r.node ∈ p.nodes) :
    m.memo <+: (m.afterAll requests).memo :=
  afterAll_induction (P := fun m' => m.memo <+: m'.memo) List.prefix_rfl fun m' r hr h =>
    h.trans (Evaluation.memo_prefix_answer hp (hnodes r hr) m')

/-! ## What variables hold -/

/-- The entry is a known answer for a simple assignment to the variable. -/
def Program.Writes (p : Program) (x : String) (entry : NodeId × Answer) : Prop :=
  ∃ w ∈ p.nodes, w.assigned? = some x ∧ w.id = entry.1 ∧ entry.2.isSome

/-- What the variable `x` holds in the memory `m` of an evaluator that started with `start`. -/
inductive Program.Holds (p : Program) (start m : Memory) (x : String) : Prop
  /-- The value of the start; no known assignment is remembered. -/
  | seeded (hcell : m.locals.lookup x = start.locals.lookup x)
    (hmemo : ∀ entry ∈ m.memo, ¬ p.Writes x entry)
  /-- The cell of the last known assignment that is remembered, which is that of the right
  operand. -/
  | written {n n' : Node} {value : Expr} {c : Cell} {front back : List (NodeId × Answer)}
    (hw : .assign n .simple (.ident n' x) value ∈ p.nodes)
    (hmemo : m.memo = front ++ (n.id, some c) :: back)
    (hlast : ∀ entry ∈ back, ¬ p.Writes x entry)
    (hlocal : m.locals.lookup x = some c)
    (hassignment : m.memo.lookup n.id = some (some c))
    (hvalue : m.memo.lookup value.id = some (some c))

section

variable {p : Program} {start m m₁ : Memory} {x : String}

theorem Program.Holds.of_eq (h : p.Holds start m x) (hmemo : m₁.memo = m.memo)
    (hlocal : m₁.locals.lookup x = m.locals.lookup x) : p.Holds start m₁ x := by
  cases h with
  | seeded hcell hnone => exact .seeded (hlocal.trans hcell) (hmemo ▸ hnone)
  | written hw hsplit hlast hcell hassignment hvalue =>
    rw [← hmemo] at hsplit hassignment hvalue
    exact .written hw hsplit hlast (hlocal.trans hcell) hassignment hvalue

theorem Program.Holds.append (h : p.Holds start m x) {entry : NodeId × Answer}
    (hmemo : m₁.memo = m.memo ++ [entry]) (hlocal : m₁.locals.lookup x = m.locals.lookup x)
    (hentry : ¬ p.Writes x entry) : p.Holds start m₁ x := by
  have hkept {id : NodeId} {a : Answer} (ha : m.memo.lookup id = some a) :
      m₁.memo.lookup id = some a := by
    rw [hmemo, List.lookup_append, ha, Option.some_or]
  cases h with
  | seeded hcell hnone =>
    refine .seeded (hlocal.trans hcell) fun entry' h => ?_
    rw [hmemo, List.mem_append, List.mem_singleton] at h
    rcases h with h | rfl
    · exact hnone entry' h
    · exact hentry
  | @written n n' value c front back hw hsplit hlast hcell hassignment hvalue =>
    have hlonger : m₁.memo = front ++ (n.id, some c) :: (back ++ [entry]) := by
      rw [hmemo, hsplit, List.append_assoc, List.cons_append]
    refine .written hw hlonger (fun entry' h => ?_) (hlocal.trans hcell) (hkept hassignment)
      (hkept hvalue)
    rcases List.mem_append.1 h with h | h
    · exact hlast entry' h
    · exact List.mem_singleton.1 h ▸ hentry

/-- An answer for a node writes at most the variable that the node assigns. -/
theorem Program.Distinct.assigned?_of_writes (hp : p.Distinct) {e : Expr} (he : e ∈ p.nodes)
    {a : Answer} (h : p.Writes x (e.id, a)) : e.assigned? = some x ∧ a.isSome := by
  obtain ⟨w, hw, hx, hid, hknown⟩ := h
  obtain rfl := hp.eq_of_id_eq hw he hid
  exact ⟨hx, hknown⟩

end

namespace Evaluation

variable {s : Setting} {p : Program} {start m m₁ : Memory} {e : Expr}

/-- An assignment has the answer of its right operand. The variable is given its value before the
answer is remembered. -/
theorem run_answer_assign {n n' : Node} {y : String} {value : Expr} (hm : m.memo.lookup n.id = none)
    (hbaseline : s.baseline (.assign n .simple (.ident n' y) value) = none) :
    (answer s (.assign n .simple (.ident n' y) value)).run m =
      match (answer s value).run (m.asking (.assign n .simple (.ident n' y) value)) with
      | (.ok a, m₁) =>
        (.ok a, (m₁.assigned y a).knowing (.assign n .simple (.ident n' y) value) a)
      | (.error f, m₁) => (.error f, m₁) := by
  rw [run_answer_of_new (e := .assign n .simple (.ident n' y) value) hm, fresh_of_none hbaseline,
    ruleBy, run_bind]
  rcases (answer s value).run (m.asking (.assign n .simple (.ident n' y) value)) with ⟨f | a, m₁⟩
  · rfl
  · dsimp only
    rw [run_assign]

/-- An assignment that has an answer writes it to its variable, and then it is remembered. -/
theorem holds_assigned (hp : p.Distinct) {n n' : Node} {y : String} {value : Expr}
    (he : .assign n .simple (.ident n' y) value ∈ p.nodes) {a : Answer}
    (hself : m.memo.lookup n.id = none) (hvalue : m.memo.lookup value.id = some a)
    (h : ∀ x, p.Holds start m x) (x : String) :
    p.Holds start ((m.assigned y a).knowing (.assign n .simple (.ident n' y) value) a) x := by
  let w : Expr := .assign n .simple (.ident n' y) value
  have hself' : (m.assigned y a).memo.lookup w.id = none := by rwa [Memory.memo_assigned]
  have hmemo : ((m.assigned y a).knowing w a).memo = m.memo ++ [(n.id, a)] := by
    rw [Memory.memo_knowing_of_new hself', Memory.memo_assigned]
    rfl
  have hlocal : ((m.assigned y a).knowing w a).locals.lookup x =
      if x = y ∧ a.isSome then a else m.locals.lookup x := m.lookup_locals_assigned a y x
  by_cases hx : x = y ∧ a.isSome
  · obtain ⟨rfl, hknown⟩ := hx
    obtain ⟨c, rfl⟩ := Option.isSome_iff_exists.1 hknown
    have hsplit : ((m.assigned x (some c)).knowing w (some c)).memo =
        m.memo ++ (n.id, some c) :: [] := hmemo
    refine .written he hsplit (List.forall_mem_nil _) ?_ ?_ ?_
    · rw [hlocal, if_pos ⟨rfl, rfl⟩]
    · rw [hmemo, List.lookup_append, hself, Option.none_or, List.lookup_cons_self]
    · rw [hmemo, List.lookup_append, hvalue, Option.some_or]
  · refine (h x).append hmemo (hlocal.trans (if_neg hx)) fun hwrites => hx ?_
    obtain ⟨hassigned, hknown⟩ := hp.assigned?_of_writes he hwrites
    exact ⟨(Option.some.inj hassigned).symm, hknown⟩

theorem holds_answer (hp : p.Distinct)
    (hbaseline : ∀ w ∈ p.nodes, w.assigned?.isSome → s.baseline w = none) (he : e ∈ p.nodes)
    (h : ∀ x, p.Holds start m x) : ∀ x, p.Holds start ((answer s e).run m).2 x := by
  induction e using Expr.below_induction generalizing m with
  | h e ih =>
    cases hassigned : e.assigned? with
    | none =>
      -- Nothing is assigned, and the answer is not one for an assignment.
      refine answer_steps (R := fun m m' => (∀ x, p.Holds start m x) → ∀ x, p.Holds start m' x)
        (fun _ h => h) (fun _ _ _ h h' hm => h' (h hm)) (fun _ => ?_) (fun hm a m₁ hrun hm₁ => ?_) h
      · exact {
          note := fun _ _ h x => (h x).of_eq rfl rfl
          operand := fun _ m₁ d hd h => ih d hd.below (hd.mem_nodes he) h
          assigned := fun name hname _ _ _ => by cases hassigned.symm.trans hname }
      · have hself := lookup_memo_fresh_self (s := s) hp he hm
        rw [hrun] at hself
        refine fun h x =>
          (hm₁ h x).append (Memory.memo_knowing_of_new hself a) rfl fun hwrites => ?_
        cases hassigned.symm.trans (hp.assigned?_of_writes he hwrites).1
    | some y =>
      obtain ⟨n, n', value, rfl⟩ := Expr.exists_of_assigned? hassigned
      cases hm : m.memo.lookup n.id with
      | some a =>
        rw [run_answer_of_known (e := .assign n .simple (.ident n' y) value) hm]
        exact h
      | none =>
        have hbelow : value.Below (.assign n .simple (.ident n' y) value) :=
          .of_mem_children (by simp [Expr.children])
        have hvalue := ih value hbelow (p.mem_nodes_of_within he hbelow.within)
          (m := m.asking (.assign n .simple (.ident n' y) value)) fun x => (h x).of_eq rfl rfl
        have hout : ¬ value.HasId n.id :=
          fun ⟨d, hd, hid⟩ => hp.id_ne_of_below he (hbelow.of_within hd) hid
        have hself := (lookup_memo_answer (s := s) hout
          (m.asking (.assign n .simple (.ident n' y) value))).trans hm
        rw [run_answer_assign hm (hbaseline _ he rfl)]
        rcases hrun : (answer s value).run
            (m.asking (.assign n .simple (.ident n' y) value)) with ⟨f | a, m₁⟩
        · rw [hrun] at hvalue
          exact hvalue
        · have hknown : m₁.memo.lookup value.id = some a := Gives.remembered hrun
          rw [hrun] at hvalue hself
          exact holds_assigned hp he hself hknown hvalue

theorem holds_afterAll (hp : p.Distinct) {requests : List Request}
    (hnodes : ∀ r ∈ requests, r.node ∈ p.nodes)
    (hbaseline : ∀ r ∈ requests, ∀ w ∈ p.nodes, w.assigned?.isSome → r.setting.baseline w = none)
    (h : ∀ x, p.Holds start m x) : ∀ x, p.Holds start (m.afterAll requests) x :=
  Memory.afterAll_induction (P := fun m => ∀ x, p.Holds start m x) h fun _ r hr =>
    holds_answer hp (hbaseline r hr) (hnodes r hr)

end Evaluation

/-- **Variables hold what was assigned last.** An evaluator that remembers nothing is asked for nodes
of a program again and again, and some of its evaluations may end in faults. The baseline knows no
assignment; what knows nothing and what knows the constants of a program are such baselines.

What is remembered stays in the order in which it was found. At any time every variable either has
the value of the start, and no known simple assignment to it is remembered, or it has the cell that
is remembered for the known simple assignment to it that was remembered last, and the same cell is
remembered for the right operand of this assignment. -/
theorem Program.locals_hold {p : Program} (hp : p.Distinct) {start : Memory}
    (hstart : start.memo = []) {earlier later : List Request}
    (hnodes : ∀ r ∈ earlier ++ later, r.node ∈ p.nodes)
    (hbaseline : ∀ r ∈ earlier ++ later, ∀ w ∈ p.nodes, w.assigned?.isSome →
      r.setting.baseline w = none) :
    (∀ (index : Index) (w : Expr), w.assigned?.isSome →
      Baseline.nothing w = none ∧ Baseline.constant index w = none) ∧
    (start.afterAll earlier).memo <+: (start.afterAll (earlier ++ later)).memo ∧
    ∀ x, p.Holds start (start.afterAll (earlier ++ later)) x := by
  refine ⟨fun index w hw => ⟨rfl, ?_⟩, ?_, ?_⟩
  · obtain ⟨x, hx⟩ := Option.isSome_iff_exists.1 hw
    obtain ⟨n, n', value, rfl⟩ := Expr.exists_of_assigned? hx
    exact Baseline.constant_of_not_name rfl
  · have hlast : start.afterAll (earlier ++ later) = (start.afterAll earlier).afterAll later :=
      List.foldl_append
    rw [hlast]
    exact Memory.memo_prefix_afterAll hp _ fun r h => hnodes r (List.mem_append_right _ h)
  · refine Evaluation.holds_afterAll hp hnodes hbaseline fun x => .seeded rfl ?_
    rw [hstart]
    exact List.forall_mem_nil _

/-- The node `[x = true, y = null.a ? true : false]`, with a fault in its second assignment. -/
def assignBeforeFault : Expr :=
  .array ⟨12, .nowhere⟩
    [some (.assign ⟨8, .nowhere⟩ .simple (.ident ⟨6, .nowhere⟩ "x") (.bool ⟨7, .nowhere⟩ true)),
      some (.assign ⟨11, .nowhere⟩ .simple (.ident ⟨10, .nowhere⟩ "y") Evaluation.testOfNull)]

/-- The first assignment of `[x = true, y = null.a ? true : false]` is remembered though the whole
ends in a fault, and `x` has its cell. -/
theorem Program.locals_hold_of_fault :
    let p : Program := .ofExpr assignBeforeFault
    let seed : Cell := ⟨.node 0 20, .ok .null⟩
    let start : Memory := ⟨[], [("x", seed)], []⟩
    let r : Request := ⟨⟨⟨[], []⟩, .nothing, none, 0⟩, assignBeforeFault⟩
    p.Distinct ∧ r.node ∈ p.nodes ∧ (∃ f, r.result start = .error f) ∧
      (start.afterAll [r]).locals.lookup "x" = some ⟨.node 0 7, .ok (.bool true)⟩ ∧
      ∀ x, p.Holds start (start.afterAll [r]) x := by
  intro p seed start r
  have hp : p.Distinct := by decide
  have hnodes : ∀ r' ∈ [] ++ [r], r'.node ∈ p.nodes := by
    intro r' h
    obtain rfl : r' = r := by simpa using h
    exact mem_nodes_ofExpr.2 .refl
  have hbaseline : ∀ r' ∈ [] ++ [r], ∀ w ∈ p.nodes, w.assigned?.isSome →
      r'.setting.baseline w = none := by
    intro r' h _ _ _
    obtain rfl : r' = r := by simpa using h
    rfl
  have hstart : start.memo = [] := rfl
  obtain ⟨-, -, hholds⟩ := locals_hold hp hstart hnodes hbaseline
  exact ⟨hp, mem_nodes_ofExpr.2 .refl, ⟨_, rfl⟩, rfl, hholds⟩

end ScriptFold
