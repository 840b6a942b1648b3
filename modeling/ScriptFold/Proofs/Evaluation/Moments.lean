import ScriptFold.Proofs.Evaluation.Skipped

/-!
Earlier and later moments of a run.

A run comes to its nodes one after another. Of two memories with which it comes to nodes, one is thus
later than the other: it remembers all that the other one remembers, and a variable is different in it
only where an assignment was recorded in between.
-/

namespace ScriptFold

/-- From `m` to `m'` all answers are kept, and the variables that change are those of assignments in
the program whose answers are new and known. -/
structure Memory.Later (p : Program) (m m' : Memory) : Prop where
  grows : m.Grows m'
  locals : ∀ x, m'.locals.lookup x = m.locals.lookup x ∨
    ∃ w ∈ p.nodes, w.assigned? = some x ∧ m.memo.lookup w.id = none ∧ (m'.answer? w).isSome

/-- No assignment to the variable is recorded from `m` to `m'`. -/
def Program.Unassigned (p : Program) (x : String) (m m' : Memory) : Prop :=
  ∀ w ∈ p.nodes, w.assigned? = some x → m.memo.lookup w.id = none → m'.answer? w = none

instance (p : Program) (x : String) (m m' : Memory) : Decidable (p.Unassigned x m m') :=
  inferInstanceAs (Decidable (∀ w ∈ p.nodes, w.assigned? = some x → m.memo.lookup w.id = none →
    m'.answer? w = none))

namespace Memory

variable {p : Program} {m m₁ m' : Memory} {e : Expr}

theorem Grows.answer? (h : m.Grows m') (hm : (m.answer? e).isSome) : (m'.answer? e).isSome := by
  obtain ⟨c, hc⟩ := Option.isSome_iff_exists.1 hm
  rw [answer?_eq (h e.id (some c) (Option.join_eq_some_iff.1 hc))]
  rfl

namespace Later

theorem refl (m : Memory) : m.Later p m := ⟨.refl m, fun _ => .inl rfl⟩

theorem trans (h : m.Later p m₁) (h' : m₁.Later p m') : m.Later p m' where
  grows := h.grows.trans h'.grows
  locals x := by
    rcases h'.locals x with hsame | ⟨w, hw, hx, hnew, hsome⟩
    · rcases h.locals x with hsame' | ⟨w, hw, hx, hnew, hsome⟩
      · exact .inl (hsame.trans hsame')
      · exact .inr ⟨w, hw, hx, hnew, h'.grows.answer? hsome⟩
    · exact .inr ⟨w, hw, hx, h.grows.unknown hnew, hsome⟩

theorem asking (m : Memory) (e : Expr) : m.Later p (m.asking e) := ⟨.refl m, fun _ => .inl rfl⟩

theorem of_leaves {V ds : List Expr} (h : Evaluation.Leaves V ds m m')
    (hV : ∀ d ∈ V, d ∈ p.nodes ∧ m.memo.lookup d.id = none) : m.Later p m' where
  grows := h.kept
  locals x := by
    rcases h.locals x with hsame | ⟨w, hw, hx, -, hsome⟩
    · exact .inl hsame
    · exact .inr ⟨w, (hV w hw).1, hx, (hV w hw).2, hsome⟩

theorem lookup_locals (h : m.Later p m') {x : String} (hx : p.Unassigned x m m') :
    m'.locals.lookup x = m.locals.lookup x := by
  rcases h.locals x with hsame | ⟨w, hw, hassigned, hnew, hsome⟩
  · exact hsame
  · rw [hx w hw hassigned hnew] at hsome
    cases hsome

end Later

end Memory

theorem Program.Unassigned.of_grows {p : Program} {x : String} {m m₁ m' : Memory}
    (h : p.Unassigned x m m') (hgrows : m₁.Grows m') : p.Unassigned x m m₁ := by
  intro w hw hassigned hnew
  by_contra hsome
  have hlater := hgrows.answer? (Option.isSome_iff_ne_none.2 hsome)
  rw [h w hw hassigned hnew] at hlater
  cases hlater

theorem Program.mem_nodes_of_mem_expressions {p : Program} {e : Expr} (h : e ∈ p.expressions) :
    e ∈ p.nodes := by
  have hroots : ∀ body : List Stmt, (Program.mk body p.span).expressions ⊆ Stmt.rootsAll body := by
    intro body
    induction body with
    | nil => exact List.nil_subset _
    | cons stmt rest ih =>
      cases stmt with
      | expr span d => exact List.cons_subset_cons d ih
      | _ => exact List.subset_append_of_subset_right _ ih
  exact mem_nodes_iff.2 ⟨e, hroots p.body h, .refl⟩

namespace Evaluation

variable {s : Setting} {p : Program} {after m m' m₁ m₂ : Memory} {d d' e : Expr}

/-! ## Evaluations and operands -/

theorem unknown_of_mem_visited {before : Memory} (h : d ∈ visited s before after e) :
    before.memo.lookup d.id = none := by
  induction e using Expr.below_induction with
  | h e ih =>
    obtain ⟨hnew, rfl | ⟨-, c, hc, hd⟩⟩ := mem_visited_iff.1 h
    · exact hnew
    · exact ih c (below_of_mem_taken hc) hd

theorem later_answer (hp : p.Distinct) (he : e ∈ p.nodes) (m : Memory) :
    m.Later p ((answer s e).run m).2 := by
  have hbefore : ∀ i ∈ e.ids, m.memo.lookup i = m.memo.lookup i := fun _ _ => rfl
  obtain ⟨V, hfront, hleaves, -⟩ := follows_answer (s := s) hp e he m hbefore (.refl _)
  refine .of_leaves hleaves fun d hd => ?_
  have hvisited := hfront.subset hd
  exact ⟨p.mem_nodes_of_within he (within_of_mem_visited hvisited), unknown_of_mem_visited hvisited⟩

theorem later_answerAll (hp : p.Distinct) {ds : List Expr} (hds : ∀ d ∈ ds, d ∈ p.nodes)
    (m : Memory) : m.Later p ((answerAll s ds).run m).2 := by
  induction ds generalizing m with
  | nil => exact .refl m
  | cons d rest ih =>
    have hd := later_answer (s := s) hp (hds d List.mem_cons_self) m
    rw [answerAll, run_bind]
    rcases hrun : (answer s d).run m with ⟨f | a, m₁⟩
    · rw [hrun] at hd
      exact hd
    · rw [hrun] at hd
      exact hd.trans (ih (fun c hc => hds c (List.mem_cons_of_mem d hc)) m₁)

theorem run_answerAll_append {front : List Expr} (h : Gives m (answerAll s front) () m₁)
    (back : List Expr) : (answerAll s (front ++ back)).run m = (answerAll s back).run m₁ := by
  induction front generalizing m with
  | nil =>
    obtain ⟨-, rfl⟩ := gives_pure.1 h
    rfl
  | cons d rest ih =>
    obtain ⟨a, m₂, ha, hrest⟩ := gives_bind.1 h
    rw [List.cons_append, answerAll, run_bind_of_gives ha, ih hrest]

theorem later_between (hp : p.Distinct) {front between : List Expr}
    (hnodes : ∀ c ∈ between, c ∈ p.nodes) (hfront : Gives m (answerAll s front) () m₁)
    (hmore : Gives m (answerAll s (front ++ d :: between)) () m₂) :
    ((answer s d).run m₁).2.Later p m₂ := by
  have hrest : Gives m₁ (answerAll s (d :: between)) () m₂ :=
    (run_answerAll_append hfront _).symm.trans hmore
  obtain ⟨a, m₃, ha, hbetween⟩ := gives_bind.1 hrest
  have hlater := later_answerAll (s := s) hp hnodes m₃
  rw [hbetween] at hlater
  rw [ha]
  exact hlater

theorem ElementOperand.split {elements : List (Option Expr)}
    (h : ElementOperand s m elements m₁ d) : ∃ front back,
      (elements.filterMap fun e => e) = front ++ d :: back ∧ Gives m (answerAll s front) () m₁ := by
  induction h with
  | here => exact ⟨[], _, rfl, gives_pure.2 ⟨rfl, rfl⟩⟩
  | hole _ ih => exact ih
  | @later _ _ _ _ element _ _ ha _ ih =>
    obtain ⟨front, back, hsplit, hfront⟩ := ih
    exact ⟨element :: front, back, congrArg (element :: ·) hsplit, gives_bind.2 ⟨_, _, ha, hfront⟩⟩

theorem MemberOperand.split {members : List Expr} (h : MemberOperand s m members m₁ d) :
    ∃ front back, (members.takeWhile Expr.isProperty).flatMap Expr.children = front ++ d :: back ∧
      Gives m (answerAll s front) () m₁ := by
  induction h with
  | key => exact ⟨[], _, rfl, gives_pure.2 ⟨rfl, rfl⟩⟩
  | @value _ _ _ key _ _ _ _ _ hk =>
    exact ⟨[key], _, rfl, gives_bind.2 ⟨_, _, hk, gives_pure.2 ⟨rfl, rfl⟩⟩⟩
  | @later _ _ _ _ _ _ key value _ _ _ _ _ hk hv _ ih =>
    obtain ⟨front, back, hsplit, hfront⟩ := ih
    refine ⟨key :: value :: front, back, congrArg (key :: value :: ·) hsplit, ?_⟩
    exact gives_bind.2 ⟨_, _, hk, gives_bind.2 ⟨_, _, hv, hfront⟩⟩

/-- The rule comes to an operand after the operands that `taken` lists before it. The list depends on
the answer for the first operand. -/
theorem Operand.split (hfirst : ∀ d rest a m₁, taken s after e = d :: rest →
      Gives m (answer s d) a m₁ → after.answer? d = a)
    (h : Operand s m e m₁ d) :
    ∃ front back, taken s after e = front ++ d :: back ∧ Gives m (answerAll s front) () m₁ := by
  have hstart : Gives m (answerAll s []) () m := gives_pure.2 ⟨rfl, rfl⟩
  have hone : ∀ {c : Expr} {a : Answer} {m₁ : Memory}, Gives m (answer s c) a m₁ →
      Gives m (answerAll s [c]) () m₁ :=
    fun ha => gives_bind.2 ⟨_, _, ha, gives_pure.2 ⟨rfl, rfl⟩⟩
  cases h with
  | element h => exact h.split
  | member h => exact h.split
  | property | assigned | first | test => exact ⟨[], _, rfl, hstart⟩
  | left hop | argument hop =>
    rw [taken, if_pos hop]
    exact ⟨[], _, rfl, hstart⟩
  | @object _ n object property computed optional k hk hkey =>
    have hanswer : after.answer? property = k := hfirst _ _ _ _ rfl hk
    refine ⟨[property], [], ?_, hone hk⟩
    rw [taken, hanswer, if_pos hkey]
    rfl
  | @right _ n op left right c hop hleft =>
    have hanswer : after.answer? left = some c := hfirst _ _ _ _ (by rw [taken, if_pos hop]) hleft
    refine ⟨[left], [], ?_, hone hleft⟩
    rw [taken, if_pos hop, hanswer]
    rfl
  | @second _ n op left right c hleft =>
    have hanswer : after.answer? left = some c := hfirst _ _ _ _ rfl hleft
    refine ⟨[left], [], ?_, hone hleft⟩
    rw [taken, hanswer]
    rfl
  | @consequent _ n test consequent alternate t v htest hv htruthy =>
    have hanswer : after.answer? test = some t := hfirst _ _ _ _ rfl htest
    refine ⟨[test], [], ?_, hone htest⟩
    rw [taken, hanswer, branch_of_read _ _ hv, if_pos htruthy]
    rfl
  | @alternate _ n test consequent alternate t v htest hv htruthy =>
    have hanswer : after.answer? test = some t := hfirst _ _ _ _ rfl htest
    refine ⟨[test], [], ?_, hone htest⟩
    rw [taken, hanswer, branch_of_read _ _ hv, if_neg (by simp [htruthy])]
    rfl

/-- What is left of a rule, and the answer that is remembered then. -/
theorem later_of_rule (hp : p.Distinct) (he : e ∈ p.nodes) (hm : m.memo.lookup e.id = none)
    (hbaseline : s.baseline e = none) {back : List Expr} (hback : ∀ d ∈ back, d ∈ p.nodes)
    {g : Evaluation Answer} (hg : Ends s e g)
    (hrun : (ruleBy (answer s) s e).run (m.asking e) =
      (do answerAll s back; g : Evaluation Answer).run m₁) :
    m₁.Later p ((answer s e).run m).2 := by
  have hlater := later_answerAll (s := s) hp hback m₁
  have hanswer := run_answer_of_new (s := s) hm
  have hnew := lookup_memo_fresh_self (s := s) hp he hm
  rw [fresh_of_none hbaseline, hrun, run_bind] at hanswer hnew
  rcases hback : (answerAll s back).run m₁ with ⟨f | u, m₂⟩
  · rw [hback] at hanswer hlater
    rw [hanswer]
    exact hlater
  · rw [hback] at hanswer hlater hnew
    have hself : m₂.memo.lookup e.id = none := (hg.grows m₂).unknown hnew
    have hends : m₂.Later p ((answer s e).run m).2 := by
      have hleaves := hg.leaves (V := [e]) List.mem_cons_self hself
      dsimp only at hanswer
      rw [hanswer]
      rcases hend : g.run m₂ with ⟨f | a, m₃⟩ <;> rw [hend] at hleaves <;>
        exact .of_leaves hleaves fun d hd => by rw [List.mem_singleton.1 hd]; exact ⟨he, hself⟩
    exact hlater.trans hends

theorem Operand.passes (hp : p.Distinct) (he : e ∈ p.nodes) (hm : m.memo.lookup e.id = none)
    (hbaseline : s.baseline e = none) (h : Operand s (m.asking e) e m₁ d) :
    (∃ front back, taken s ((answer s e).run m).2 e = front ++ d :: back ∧
      Gives (m.asking e) (answerAll s front) () m₁) ∧
    ((answer s d).run m₁).2.Later p ((answer s e).run m).2 := by
  have hnodes : ∀ c : Expr, c.Below e → c ∈ p.nodes :=
    fun c hc => p.mem_nodes_of_within he hc.within
  have hretains : ∀ c : Expr, c.Below e → Retains s c :=
    fun c hc => retains_of_mem_nodes hp (hnodes c hc)
  have hrule := grows_of_rule (s := s) hp he hm hbaseline
  obtain ⟨g, hg, hrun⟩ :=
    (passes_rule ((answer s e).run m).2 (m.asking e) hretains).run hrule
  have hbelow : ∀ c ∈ taken s ((answer s e).run m).2 e, c.Below e := fun _ => below_of_mem_taken
  have hfirst : ∀ c rest a m₂, taken s ((answer s e).run m).2 e = c :: rest →
      Gives (m.asking e) (answer s c) a m₂ → ((answer s e).run m).2.answer? c = a := by
    intro c rest a m₂ htaken ha
    rw [htaken] at hrun hbelow
    have hrest : ∀ d ∈ rest, d ∈ p.nodes := fun d hd => hnodes d (hbelow d (List.mem_cons_of_mem c hd))
    rw [answerAll, bind_assoc, run_bind_of_gives ha] at hrun
    have hlater := later_of_rule hp he hm hbaseline hrest hg hrun
    exact Memory.answer?_eq (hlater.grows _ _ ha.remembered)
  obtain ⟨front, back, htaken, hfront⟩ := h.split hfirst
  refine ⟨⟨front, back, htaken, hfront⟩, ?_⟩
  rcases hd : (answer s d).run m₁ with ⟨f | a, m₂⟩
  · rw [h.error hm hbaseline hd]
    exact .refl m₂
  · have hback : ∀ c ∈ back, c ∈ p.nodes := fun c hc =>
      hnodes c (hbelow c (by rw [htaken]; simp [hc]))
    refine later_of_rule hp he hm hbaseline hback hg ?_
    rw [hrun, htaken, run_bind, run_answerAll_append hfront, answerAll, run_bind_of_gives hd,
      ← run_bind]

theorem Operand.later (hp : p.Distinct) (he : e ∈ p.nodes) (hm : m.memo.lookup e.id = none)
    (hbaseline : s.baseline e = none) (h : Operand s (m.asking e) e m₁ d) : m.Later p m₁ := by
  obtain ⟨⟨front, back, htaken, hfront⟩, -⟩ := h.passes hp he hm hbaseline
  have hnodes : ∀ c ∈ front, c ∈ p.nodes := fun c hc =>
    p.mem_nodes_of_within he (below_of_mem_taken (htaken ▸ List.mem_append_left _ hc)).within
  have hlater := later_answerAll (s := s) hp hnodes (m.asking e)
  rw [hfront] at hlater
  exact (Memory.Later.asking m e).trans hlater

theorem Operand.answer?_after (hp : p.Distinct) (he : e ∈ p.nodes) (hm : m.memo.lookup e.id = none)
    (hbaseline : s.baseline e = none) (h : Operand s (m.asking e) e m₁ d) {a : Answer}
    (ha : Gives m₁ (answer s d) a m₂) : ((answer s e).run m).2.answer? d = a := by
  have hlater := (h.passes hp he hm hbaseline).2
  rw [ha] at hlater
  exact Memory.answer?_eq (hlater.grows _ _ ha.remembered)

theorem front_cases {front back front' back' : List Expr}
    (h : front ++ d :: back = front' ++ d' :: back') :
    (front = front' ∧ d = d') ∨ (∃ between, front' = front ++ d :: between) ∨
      ∃ between, front = front' ++ d' :: between := by
  rcases List.append_eq_append_iff.1 h with ⟨_ | ⟨c, between⟩, hfronts, hbacks⟩ |
    ⟨_ | ⟨c, between⟩, hfronts, hbacks⟩
  · exact .inl ⟨by simpa using hfronts.symm, (List.cons.inj hbacks).1⟩
  · exact .inr (.inl ⟨between, by rw [hfronts, (List.cons.inj hbacks).1]⟩)
  · exact .inl ⟨by simpa using hfronts, (List.cons.inj hbacks).1.symm⟩
  · exact .inr (.inr ⟨between, by rw [hfronts, (List.cons.inj hbacks).1]⟩)

/-- Of two operands of a node one is evaluated before the rule comes to the other. -/
theorem Operand.total (hp : p.Distinct) (he : e ∈ p.nodes) (hm : m.memo.lookup e.id = none)
    (hbaseline : s.baseline e = none) (h : Operand s (m.asking e) e m₁ d)
    (h' : Operand s (m.asking e) e m₂ d') :
    (m₁ = m₂ ∧ d = d') ∨ ((answer s d).run m₁).2.Later p m₂ ∨
      ((answer s d').run m₂).2.Later p m₁ := by
  have hbelow : ∀ c ∈ taken s ((answer s e).run m).2 e, c ∈ p.nodes := fun c hc =>
    p.mem_nodes_of_within he (below_of_mem_taken hc).within
  obtain ⟨⟨front, back, htaken, hfront⟩, -⟩ := h.passes hp he hm hbaseline
  obtain ⟨⟨front', back', htaken', hfront'⟩, -⟩ := h'.passes hp he hm hbaseline
  rcases front_cases (htaken.symm.trans htaken') with ⟨rfl, rfl⟩ | ⟨between, rfl⟩ | ⟨between, rfl⟩
  · have hmemories := hfront.symm.trans hfront'
    cases hmemories
    exact .inl ⟨rfl, rfl⟩
  · exact .inr (.inl (later_between hp (fun c hc => hbelow c (by simp [htaken', hc])) hfront hfront'))
  · exact .inr (.inr (later_between hp (fun c hc => hbelow c (by simp [htaken, hc])) hfront' hfront))

/-! ## Visits -/

theorem Visits.trans (h : Visits s m e m₁ d) (h' : Visits s m₁ d m₂ d') : Visits s m e m₂ d' := by
  induction h with
  | refl => exact h'
  | step hnew hbaseline hoperand _ ih => exact .step hnew hbaseline hoperand (ih h')

theorem Visits.later_start (hp : p.Distinct) (he : e ∈ p.nodes) (h : Visits s m e m₁ d) :
    m.Later p m₁ := by
  induction h with
  | refl => exact .refl _
  | step hnew hbaseline hoperand _ ih =>
    exact (hoperand.later hp he hnew hbaseline).trans (ih (hoperand.mem_nodes he))

theorem Visits.later_end (hp : p.Distinct) (he : e ∈ p.nodes) (h : Visits s m e m₁ d) :
    ((answer s d).run m₁).2.Later p ((answer s e).run m).2 := by
  induction h with
  | refl => exact .refl _
  | step hnew hbaseline hoperand _ ih =>
    exact (ih (hoperand.mem_nodes he)).trans (hoperand.passes hp he hnew hbaseline).2

theorem Visits.mem_nodes (he : e ∈ p.nodes) (h : Visits s m e m₁ d) : d ∈ p.nodes := by
  induction h with
  | refl => exact he
  | step _ _ hoperand _ ih => exact ih (hoperand.mem_nodes he)

/-- A visit within a node is before all that is later than the end of the node. -/
theorem Visits.later_of_end (hp : p.Distinct) (he : e ∈ p.nodes) (h : Visits s m e m₁ d)
    (hend : ((answer s e).run m).2.Later p m₂) : m₁.Later p m₂ :=
  (later_answer hp (h.mem_nodes he) m₁).trans ((h.later_end hp he).trans hend)

theorem Visits.total (hp : p.Distinct) (he : e ∈ p.nodes) (h : Visits s m e m₁ d)
    (h' : Visits s m e m₂ d') : m₁.Later p m₂ ∨ m₂.Later p m₁ := by
  induction h generalizing m₂ d' with
  | refl => exact .inl (h'.later_start hp he)
  | @step m m₃ m₁ c d e hnew hbaseline hoperand hvisit ih =>
    cases h' with
    | refl => exact .inr ((Visits.step hnew hbaseline hoperand hvisit).later_start hp he)
    | @step _ m₄ _ c' _ _ _ _ hoperand' hvisit' =>
      have hc := hoperand.mem_nodes he
      have hc' := hoperand'.mem_nodes he
      -- A visit within the earlier operand ends before the later one begins.
      rcases hoperand.total hp he hnew hbaseline hoperand' with ⟨rfl, rfl⟩ | hlater | hlater
      · exact ih hc hvisit'
      · exact .inl (hvisit.later_of_end hp hc (hlater.trans (hvisit'.later_start hp hc')))
      · exact .inr (hvisit'.later_of_end hp hc' (hlater.trans (hvisit.later_start hp hc)))

section

variable {es : List Expr}

theorem VisitsAll.of_answerAll {front back : List Expr} (h : Gives m (answerAll s front) () m₁) :
    VisitsAll s m (front ++ e :: back) m₁ e := by
  induction front generalizing m with
  | nil =>
    obtain ⟨-, rfl⟩ := gives_pure.1 h
    exact .here .refl
  | cons d rest ih =>
    obtain ⟨a, m₂, ha, hrest⟩ := gives_bind.1 h
    exact .later ha (ih hrest)

theorem VisitsAll.trans (h : VisitsAll s m es m₁ d) (h' : Visits s m₁ d m₂ d') :
    VisitsAll s m es m₂ d' := by
  induction h with
  | here h => exact .here (h.trans h')
  | later ha _ ih => exact .later ha (ih h')

theorem VisitsAll.mem_nodes (hes : ∀ e ∈ es, e ∈ p.nodes) (h : VisitsAll s m es m₁ d) :
    d ∈ p.nodes := by
  induction h with
  | here h => exact h.mem_nodes (hes _ List.mem_cons_self)
  | later _ _ ih => exact ih fun c hc => hes c (List.mem_cons_of_mem _ hc)

theorem VisitsAll.unknown_of_distinct (hp : p.Distinct)
    (h : VisitsAll s .empty p.expressions m d) : m.memo.lookup d.id = none := by
  have hids : (Stmt.idsAll p.body).Nodup := p.perm_ids.nodup_iff.1 hp
  exact h.unknown (hids.sublist (Stmt.idsAll_expressions_sublist p.body p.span)) fun _ _ => rfl

theorem VisitsAll.later_start (hp : p.Distinct) (hes : ∀ e ∈ es, e ∈ p.nodes)
    (h : VisitsAll s m es m₁ d) : m.Later p m₁ := by
  induction h with
  | here h => exact h.later_start hp (hes _ List.mem_cons_self)
  | @later m _ _ _ e _ _ ha _ ih =>
    have he := later_answer (s := s) hp (hes e List.mem_cons_self) m
    rw [ha] at he
    exact he.trans (ih fun c hc => hes c (List.mem_cons_of_mem e hc))

theorem VisitsAll.later_of_visits (hp : p.Distinct) {m₃ : Memory} {a : Answer}
    (he : e ∈ p.nodes) (hes : ∀ c ∈ es, c ∈ p.nodes) (hvisit : Visits s m e m₁ d)
    (ha : Gives m (answer s e) a m₃) (h : VisitsAll s m₃ es m₂ d') : m₁.Later p m₂ := by
  refine hvisit.later_of_end hp he ?_
  rw [ha]
  exact h.later_start hp hes

/-- **Of two visits of a run, one is later than the other.** -/
theorem VisitsAll.total (hp : p.Distinct) (hes : ∀ e ∈ es, e ∈ p.nodes)
    (h : VisitsAll s m es m₁ d) (h' : VisitsAll s m es m₂ d') :
    m₁.Later p m₂ ∨ m₂.Later p m₁ := by
  induction h generalizing m₂ d' with
  | here h =>
    have he := hes _ List.mem_cons_self
    cases h' with
    | here h' => exact h.total hp he h'
    | later ha h' =>
      exact .inl (h'.later_of_visits hp he (fun c hc => hes c (List.mem_cons_of_mem _ hc)) h ha)
  | later ha h ih =>
    have hrest := fun c hc => hes c (List.mem_cons_of_mem _ hc)
    cases h' with
    | here h' => exact .inr (h.later_of_visits hp (hes _ List.mem_cons_self) hrest h' ha)
    | later ha' h' =>
      have hmemories := ha.symm.trans ha'
      cases hmemories
      exact ih hrest h'

end

end Evaluation

end ScriptFold
