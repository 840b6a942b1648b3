import ScriptFold.Proofs.Evaluation.Anew
import ScriptFold.Proofs.Expr.Walk

/-!
The order of an evaluation.

Which operands the rule for a node takes follows from what is remembered after it, since an answer
stays as it is once it is remembered: so `taken` reads in the memory after the evaluation whether an
operand is known. The rule takes these operands one after another up to the first fault, and then
ends (`passes_rule`). Without a fault an evaluation thus comes to the nodes that `visited` lists, in
this order, which is that of a walk.
-/

namespace ScriptFold

def Memory.answer? (m : Memory) (e : Expr) : Answer := (m.memo.lookup e.id).join

theorem Memory.answer?_eq {m : Memory} {e : Expr} {a : Answer} (h : m.memo.lookup e.id = some a) :
    m.answer? e = a := by
  rw [answer?, h, Option.join_some]

def Expr.isProperty : Expr → Bool
  | property _ _ _ _ _ => true
  | _ => false

namespace Evaluation

variable {s : Setting} {p : Program} {after before m m₁ m' : Memory} {d e : Expr}

/-! ## Operands by what is remembered -/

def branch (test : Answer) (consequent alternate : Expr) : List Expr :=
  match test.map Cell.reading with
  | some (.ok v) => [if v.isTruthy then consequent else alternate]
  | some (.error _) | none => []

section

variable (consequent alternate : Expr)

theorem branch_of_read {cell : Cell} {v : Value} (h : cell.reading = .ok v) :
    branch (some cell) consequent alternate = [if v.isTruthy then consequent else alternate] := by
  simp only [branch, Option.map_some, h]

theorem branch_of_fault {cell : Cell} {f : Fault} (h : cell.reading = .error f) :
    branch (some cell) consequent alternate = [] := by
  simp only [branch, Option.map_some, h]

theorem branch_sublist (test : Answer) :
    (branch test consequent alternate).Sublist [consequent, alternate] := by
  cases test with
  | none => exact List.nil_sublist _
  | some cell =>
    cases h : cell.reading with
    | error f =>
      rw [branch_of_fault consequent alternate h]
      exact List.nil_sublist _
    | ok v =>
      rw [branch_of_read consequent alternate h]
      split <;> simp

end

/-- The operands that the rule for a node takes, in this order, where `after` is the memory after the
evaluation of the node. -/
def taken (s : Setting) (after : Memory) : Expr → List Expr
  | .array _ elements => elements.filterMap fun e => e
  | .object _ members => (members.takeWhile Expr.isProperty).flatMap Expr.children
  | .member _ object property computed _ =>
    property :: if (s.keyOf computed property (after.answer? property)).isSome then [object] else []
  | .assign _ .simple (.ident _ _) value => [value]
  | .binary _ op left right =>
    if op.function?.isSome then left :: if (after.answer? left).isSome then [right] else []
    else []
  | .logical _ _ left right => left :: if (after.answer? left).isSome then [right] else []
  | .unary _ op argument => if op.function?.isSome then [argument] else []
  | .conditional _ test consequent alternate =>
    test :: branch (after.answer? test) consequent alternate
  | .null _ | .bool _ _ | .number _ _ | .string _ _ | .ident _ _ | .property _ _ _ _ _
  | .spread _ _ | .call _ _ _ _ | .assign _ _ _ _ | .sequence _ _ | .invalid _ => []

theorem taken_assign (n : Node) (op : AssignOp) (target value : Expr) :
    taken s after (.assign n op target value) =
      if (Expr.assign n op target value).assigned?.isSome then [value] else [] := by
  cases op <;> cases target <;> rfl

theorem taken_sublist (s : Setting) (after : Memory) (e : Expr) :
    (taken s after e).Sublist e.operands := by
  cases e with
  | array n elements => exact .refl _
  | object n members => exact (List.takeWhile_sublist Expr.isProperty).flatMap Expr.children
  | member n object property computed optional =>
    rw [taken, Expr.operands]
    split <;> simp
  | assign n op target value =>
    rw [taken_assign]
    split <;> simp [Expr.operands, Expr.children]
  | binary n op left right =>
    rw [taken]
    split
    · split <;> simp [Expr.operands, Expr.children]
    · exact List.nil_sublist _
  | logical n op left right =>
    rw [taken]
    split <;> simp [Expr.operands, Expr.children]
  | unary n op argument =>
    rw [taken]
    split <;> simp [Expr.operands, Expr.children]
  | conditional n test consequent alternate =>
    exact (branch_sublist consequent alternate _).cons_cons test
  | _ => exact List.nil_sublist _

theorem below_of_mem_taken (h : d ∈ taken s after e) : d.Below e :=
  Expr.below_of_mem_operands ((taken_sublist s after e).subset h)

/-- The nodes that an evaluation comes to, in this order, where `before` and `after` are the memories
before and after it. -/
def visited (s : Setting) (before after : Memory) (e : Expr) : List Expr :=
  if (before.memo.lookup e.id).isSome then []
  else if (s.baseline e).isSome then [e]
  else e :: (taken s after e).attach.flatMap fun ⟨d, _⟩ => visited s before after d
termination_by sizeOf e
decreasing_by exact (below_of_mem_taken ‹_›).sizeOf_lt

theorem visited_of_known (h : before.memo.lookup e.id ≠ none) : visited s before after e = [] := by
  rw [visited, if_pos (Option.isSome_iff_ne_none.2 h)]

theorem visited_of_some (h : before.memo.lookup e.id = none) {reading : Reading}
    (hbaseline : s.baseline e = some reading) : visited s before after e = [e] := by
  rw [visited, h, hbaseline]
  rfl

theorem visited_of_none (h : before.memo.lookup e.id = none) (hbaseline : s.baseline e = none) :
    visited s before after e = e :: (taken s after e).flatMap (visited s before after) := by
  rw [visited, h, hbaseline]
  simp

theorem visited_sublist_walk (s : Setting) (before after : Memory) (e : Expr) :
    (visited s before after e).Sublist e.walk := by
  induction e using Expr.below_induction with
  | h e ih =>
    rw [Expr.walk_eq]
    cases h : before.memo.lookup e.id with
    | some a =>
      rw [visited_of_known (by simp [h])]
      exact List.nil_sublist _
    | none =>
    cases hbaseline : s.baseline e with
    | some reading =>
      rw [visited_of_some h hbaseline]
      exact List.singleton_sublist.2 List.mem_cons_self
    | none =>
      rw [visited_of_none h hbaseline]
      have htaken := ((taken_sublist s after e).flatMap Expr.walk)
      refine (List.Sublist.trans ?_ htaken).cons_cons e
      exact List.Sublist.flatMap_right _ fun d hd => ih d (below_of_mem_taken hd)

/-! ## Runs in order -/

theorem Gives.remembered {a : Answer} (h : Gives m (answer s e) a m₁) :
    m₁.memo.lookup e.id = some a := by
  rw [answer_eq] at h
  rcases gives_once.1 h with ⟨hknown, rfl⟩ | ⟨-, m₂, -, rfl⟩
  · exact hknown
  · rw [Memory.lookup_memo_knowing, if_pos rfl]

def answerAll (s : Setting) : List Expr → Evaluation Unit
  | [] => return
  | d :: rest => do
    let _ ← answer s d
    answerAll s rest

/-- The evaluation of the node keeps all answers that are remembered. -/
def Retains (s : Setting) (e : Expr) : Prop := ∀ m : Memory, m.Grows ((answer s e).run m).2

/-- How the rule for a node ends when it has taken its operands. -/
inductive Ends (s : Setting) (e : Expr) : Evaluation Answer → Prop
  | gives (a : Answer) : Ends s e (pure a)
  | faults (f : Fault) : Ends s e (throw f)
  | calls {n : Node} {callee : Expr} {xs : List Expr} {optional : Bool}
    (he : e = .call n callee xs optional) : Ends s e (call s e callee)
  | assigns {name : String} (he : e.assigned? = some name) (a : Answer) :
    Ends s e (do assign name a; return a)

theorem Ends.grows {g : Evaluation Answer} (h : Ends s e g) (m : Memory) :
    m.Grows (g.run m).2 := by
  cases h with
  | gives | faults => exact .refl m
  | @calls n callee =>
    obtain ⟨result, called, hrun⟩ := run_call s e callee
    rw [hrun]
    exact .refl m
  | @assigns name _ a =>
    rw [run_assign]
    exact .assigned name a

/-- From the memory `m` the computation `x` evaluates the nodes `ds` one after another, up to the
first fault, and then ends as the rule for `e` does. The list `ds` may rely on what is remembered
afterwards. -/
structure Passes (s : Setting) (after : Memory) (e : Expr) (m : Memory) (x : Evaluation Answer)
    (ds : List Expr) : Prop where
  grows : m.Grows (x.run m).2
  run : (x.run m).2.Grows after →
    ∃ g, Ends s e g ∧ x.run m = (do answerAll s ds; g : Evaluation Answer).run m

namespace Passes

variable {k : Answer → Evaluation Answer} {ds : List Expr}

theorem of_ends {g : Evaluation Answer} (h : Ends s e g) : Passes s after e m g [] :=
  ⟨h.grows m, fun _ => ⟨g, h, rfl⟩⟩

/-- What follows an operand may depend on its answer. This is the answer that is remembered for the
operand afterwards. -/
theorem operand (ds : Answer → List Expr) (hd : Retains s d)
    (hk : ∀ a m₁, Passes s after e m₁ (k a) (ds a)) :
    Passes s after e m (answer s d >>= k) (d :: ds (after.answer? d)) := by
  have hgrows := hd m
  rcases hrun : (answer s d).run m with ⟨f | a, m₁⟩
  · -- Where the operand faults, it does not matter what would follow.
    rw [hrun] at hgrows
    refine ⟨by rw [run_bind, hrun]; exact hgrows, fun _ => ⟨pure none, .gives none, ?_⟩⟩
    rw [run_bind, hrun, answerAll, bind_assoc, run_bind, hrun]
  · -- The answer is remembered at once and is still there afterwards.
    rw [hrun] at hgrows
    obtain ⟨hgrows', hrest⟩ := hk a m₁
    rw [← run_bind_of_gives hrun] at hgrows' hrest
    refine ⟨hgrows.trans hgrows', fun hafter => ?_⟩
    obtain ⟨g, hg, hrest⟩ := hrest hafter
    have hanswer : after.answer? d = a :=
      Memory.answer?_eq (hgrows'.trans hafter _ _ (Gives.remembered hrun))
    refine ⟨g, hg, ?_⟩
    rw [hrest, answerAll, bind_assoc, run_bind_of_gives hrun, hanswer]

theorem final (hd : Retains s d) (hk : ∀ a, Ends s e (k a)) :
    Passes s after e m (answer s d >>= k) [d] :=
  operand (fun _ => []) hd fun a _ => of_ends (hk a)

theorem last (hd : Retains s d) :
    Passes s after e m (answer s d) [d] := by
  have h : Passes s after e m (answer s d >>= pure) [d] := final hd .gives
  rw [bind_pure] at h
  exact h

theorem pair {c : Expr} {f : Cell → Cell → Cell}
    (hc : Retains s c)
    (hd : Retains s d) :
    Passes s after e m
      (do
        let some a ← answer s c | return none
        let some b ← answer s d | return none
        return some (f a b))
      (c :: if (after.answer? c).isSome then [d] else []) := by
  refine operand (fun a => if a.isSome then [d] else []) hc fun a m₁ => ?_
  cases a with
  | none => exact of_ends (.gives none)
  | some a =>
    refine final hd fun b => ?_
    cases b <;> exact .gives _

theorem elements {elements : List (Option Expr)} {k : Option (List Cell) → Evaluation Answer}
    (hd : ∀ d, some d ∈ elements → Retains s d)
    (hk : ∀ items, Ends s e (k items)) :
    Passes s after e m (elementsBy (answer s) elements >>= k) (elements.filterMap fun d => d) := by
  induction elements generalizing m k with
  | nil =>
    rw [elementsBy, pure_bind]
    exact of_ends (hk _)
  | cons element rest ih =>
    have hrest := fun d h => hd d (List.mem_cons_of_mem element h)
    cases element with
    | none =>
      rw [elementsBy, bind_assoc]
      refine ih hrest fun _ => ?_
      rw [pure_bind]
      exact hk none
    | some d =>
      rw [elementsBy, bind_assoc]
      refine operand (fun _ => rest.filterMap fun d => d) (hd d List.mem_cons_self)
        fun item m₁ => ?_
      rw [bind_assoc]
      refine ih hrest fun items => ?_
      rw [pure_bind]
      exact hk _

theorem members {members : List Expr} {k : Option (List (Cell × Cell)) → Evaluation Answer}
    (hd : ∀ q ∈ members, ∀ d ∈ q.children, Retains s d)
    (hk : ∀ entries, Ends s e (k entries)) :
    Passes s after e m (membersBy (answer s) s members >>= k)
      ((members.takeWhile Expr.isProperty).flatMap Expr.children) := by
  induction members generalizing m k with
  | nil =>
    rw [membersBy, pure_bind]
    exact of_ends (hk _)
  | cons member rest ih =>
    have hrest := fun q h => hd q (List.mem_cons_of_mem member h)
    have hmember := hd member List.mem_cons_self
    cases member with
    | property n key value computed shorthand =>
      rw [membersBy, bind_assoc]
      refine operand (fun _ => value :: (rest.takeWhile Expr.isProperty).flatMap Expr.children)
        (hmember key (by simp [Expr.children])) fun a m₁ => ?_
      rw [bind_assoc]
      refine operand (fun _ => (rest.takeWhile Expr.isProperty).flatMap Expr.children)
        (hmember value (by simp [Expr.children])) fun b m₂ => ?_
      rw [bind_assoc]
      refine ih hrest fun entries => ?_
      rw [pure_bind]
      exact hk _
    | _ => exact of_ends (hk none)

end Passes

theorem passes_rule (after m : Memory) (hbelow : ∀ d : Expr, d.Below e → Retains s d) :
    Passes s after e m (ruleBy (answer s) s e) (taken s after e) := by
  have hchild : ∀ d ∈ e.children, Retains s d := fun d hd => hbelow d (.of_mem_children hd)
  cases e with
  | null | bool | number | string | property | spread | sequence | invalid =>
    exact .of_ends (.gives _)
  | ident n name => exact ⟨.refl m, fun _ => ⟨pure (m.locals.lookup name), .gives _, rfl⟩⟩
  | array n elements =>
    refine .elements (fun d hd => hchild d (by simpa [Expr.children] using hd)) fun items => ?_
    cases items <;> exact .gives _
  | object n members =>
    refine .members (fun q hq d hd => hbelow d ⟨q, hq, .child hd⟩) fun entries => ?_
    cases entries <;> exact .gives _
  | member n object property computed optional =>
    refine .operand (fun a => if (s.keyOf computed property a).isSome then [object] else [])
      (hchild property (by simp [Expr.children])) fun a m₁ => ?_
    cases s.keyOf computed property a with
    | none => exact .of_ends (.gives none)
    | some key =>
      refine .final (hchild object (by simp [Expr.children])) fun o => ?_
      cases o <;> exact .gives _
  | call n callee xs optional => exact .of_ends (.calls rfl)
  | assign n op target value =>
    cases op with
    | simple =>
      cases target with
      | ident n' name =>
        exact .final (hchild value (by simp [Expr.children])) (.assigns rfl)
      | _ => exact .of_ends (.gives none)
    | _ => exact .of_ends (.gives none)
  | binary n op left right =>
    cases hop : op.function? with
    | none =>
      simp only [ruleBy, taken, hop]
      exact .of_ends (.gives none)
    | some f =>
      simp only [ruleBy, taken, hop]
      exact .pair (hchild left (by simp [Expr.children])) (hchild right (by simp [Expr.children]))
  | logical n op left right =>
    exact .pair (hchild left (by simp [Expr.children])) (hchild right (by simp [Expr.children]))
  | unary n op argument =>
    cases hop : op.function? with
    | none =>
      simp only [ruleBy, taken, hop]
      exact .of_ends (.gives none)
    | some f =>
      simp only [ruleBy, taken, hop]
      refine .final (hchild argument (by simp [Expr.children])) fun a => ?_
      cases a <;> exact .gives _
  | conditional n test consequent alternate =>
    refine .operand (fun t => branch t consequent alternate)
      (hchild test (by simp [Expr.children])) fun t m₁ => ?_
    cases t with
    | none => exact .of_ends (.gives none)
    | some t =>
      dsimp only
      cases hreading : t.reading with
      | error f =>
        have hread : (read t : Evaluation Value) = throw f := by rw [read, hreading]
        rw [branch_of_fault consequent alternate hreading, hread]
        exact .of_ends (.faults f)
      | ok v =>
        have hread : read t = pure v := by rw [read, hreading]
        rw [branch_of_read consequent alternate hreading, hread, pure_bind]
        split
        · exact .last (hchild consequent (by simp [Expr.children]))
        · exact .last (hchild alternate (by simp [Expr.children]))

end Evaluation

end ScriptFold
