import ScriptFold.Proofs.Evaluation.Order

/-!
What an evaluation leaves behind.

Questions to the baseline, macro calls, answers and assignments are each due to a node that the
evaluation comes to. So the evaluation of a node leaves nothing that is not due to the nodes in
`visited` (`follows_answer`).
-/

namespace ScriptFold

def Event.asked? : Event → Option NodeName
  | .asked n => some n
  | .called _ _ => none

/-- The memory after the call of a macro at a node, if there is one. -/
def Memory.calling (m : Memory) (e : Expr) (called : Option BuildMacro) : Memory :=
  { m with trace := called.toList.map (.called · e.nodeName) ++ m.trace }

namespace Evaluation

variable {s : Setting} {p : Program} {after before m m₁ m' : Memory} {e : Expr}

/-! ## Leavings -/

/-- From `m` to `m'` the baseline is asked about `asked`, in this order, and all else is due to
nodes in `V`: calls, answers that are new, and assignments, whose values are remembered. -/
structure Leaves (V asked : List Expr) (m m' : Memory) : Prop where
  trace : ∃ new : List Event, m'.trace = new.reverse ++ m.trace ∧
    new.filterMap Event.asked? = asked.map Expr.nodeName ∧
    ∀ b name, .called b name ∈ new → ∃ d ∈ V, d.nodeName = name
  kept : m.Grows m'
  memo : ∀ i, m'.memo.lookup i ≠ m.memo.lookup i → ∃ d ∈ V, d.id = i
  locals : ∀ x, m'.locals.lookup x = m.locals.lookup x ∨
    ∃ d ∈ V, d.assigned? = some x ∧ m'.locals.lookup x = m'.answer? d ∧ (m'.answer? d).isSome

namespace Leaves

variable {V V' ds ds' : List Expr} {a : Answer}

theorem of_eq (htrace : m'.trace = m.trace) (hmemo : m'.memo = m.memo)
    (hlocals : m'.locals = m.locals) : Leaves V [] m m' where
  trace := ⟨[], by rw [htrace]; rfl, rfl, fun _ _ h => by cases h⟩
  kept i a h := by rw [hmemo, h]
  memo i h := by rw [hmemo] at h; exact absurd rfl h
  locals x := .inl (by rw [hlocals])

theorem refl (m : Memory) : Leaves V [] m m := of_eq rfl rfl rfl

theorem mono (h : Leaves V ds m m') (hV : V ⊆ V') : Leaves V' ds m m' where
  trace := by
    obtain ⟨new, htrace, hasked, hcalled⟩ := h.trace
    refine ⟨new, htrace, hasked, fun b name hb => ?_⟩
    obtain ⟨d, hd, hname⟩ := hcalled b name hb
    exact ⟨d, hV hd, hname⟩
  kept := h.kept
  memo i hi := by
    obtain ⟨d, hd, hid⟩ := h.memo i hi
    exact ⟨d, hV hd, hid⟩
  locals x := by
    rcases h.locals x with hx | ⟨d, hd, hx⟩
    · exact .inl hx
    · exact .inr ⟨d, hV hd, hx⟩

theorem trans (h : Leaves V ds m m₁) (h' : Leaves V ds' m₁ m') : Leaves V (ds ++ ds') m m' where
  trace := by
    obtain ⟨new, htrace, hasked, hcalled⟩ := h.trace
    obtain ⟨new', htrace', hasked', hcalled'⟩ := h'.trace
    refine ⟨new ++ new', ?_, ?_, fun b name hb => ?_⟩
    · rw [htrace', htrace, List.reverse_append, List.append_assoc]
    · rw [List.filterMap_append, hasked, hasked', List.map_append]
    · exact (List.mem_append.1 hb).elim (hcalled b name) (hcalled' b name)
  kept := h.kept.trans h'.kept
  memo i hi := by
    by_cases hi' : m'.memo.lookup i = m₁.memo.lookup i
    · rw [hi'] at hi
      exact h.memo i hi
    · exact h'.memo i hi'
  locals x := by
    rcases h'.locals x with hx' | hx'
    · rcases h.locals x with hx | ⟨d, hd, hassigned, hvalue, hsome⟩
      · exact .inl (hx'.trans hx)
      · obtain ⟨c, hc⟩ := Option.isSome_iff_exists.1 hsome
        have hlookup : m₁.memo.lookup d.id = some (some c) := Option.join_eq_some_iff.1 hc
        have hkept : m'.answer? d = some c := Memory.answer?_eq (h'.kept _ _ hlookup)
        refine .inr ⟨d, hd, hassigned, ?_, by rw [hkept]; rfl⟩
        rw [hx', hvalue, hc, hkept]
    · exact .inr hx'

theorem asking (m : Memory) (e : Expr) : Leaves V [e] m (m.asking e) where
  trace := ⟨[.asked e.nodeName], rfl, rfl, fun b name h => by simp at h⟩
  kept := .refl m
  memo i h := absurd rfl h
  locals x := .inl rfl

theorem called (he : e ∈ V) (called : Option BuildMacro) :
    Leaves V [] m (m.calling e called) where
  trace := by
    refine ⟨(called.toList.map (.called · e.nodeName)).reverse, ?_, ?_, fun b name hb => ⟨e, he, ?_⟩⟩
    · rw [List.reverse_reverse]
      rfl
    · cases called <;> rfl
    · obtain ⟨b', -, heq⟩ := List.mem_map.1 (List.mem_reverse.1 hb)
      cases heq
      rfl
  kept := .refl m
  memo i h := absurd rfl h
  locals x := .inl rfl

theorem knowing (he : e ∈ V) (hm : m.memo.lookup e.id = none) (a : Answer) :
    Leaves V [] m (m.knowing e a) where
  trace := ⟨[], rfl, rfl, fun _ _ h => by cases h⟩
  kept := .knowing hm a
  memo i h := by
    refine ⟨e, he, ?_⟩
    by_contra hne
    rw [Memory.lookup_memo_knowing, if_neg (Ne.symm hne)] at h
    exact h rfl
  locals x := .inl rfl

theorem assigned (he : e ∈ V) {x : String} (hx : e.assigned? = some x)
    (hm : m.memo.lookup e.id = none) (a : Answer) :
    Leaves V [] m ((m.assigned x a).knowing e a) where
  trace := ⟨[], by cases a <;> rfl, rfl, fun _ _ h => by cases h⟩
  kept := (Memory.Grows.assigned x a).trans (.knowing (by rw [Memory.memo_assigned, hm]) a)
  memo i h := by
    refine ⟨e, he, ?_⟩
    by_contra hne
    rw [Memory.lookup_memo_knowing, if_neg (Ne.symm hne), Memory.memo_assigned] at h
    exact h rfl
  locals y := by
    rw [Memory.locals_knowing, Memory.lookup_locals_assigned]
    split
    · rename_i h
      have hanswer : ((m.assigned x a).knowing e a).answer? e = a :=
        Memory.answer?_eq (by rw [Memory.lookup_memo_knowing, if_pos rfl])
      refine .inr ⟨e, he, by rw [h.1, hx], hanswer.symm, ?_⟩
      rw [hanswer]
      exact h.2
    · exact .inl rfl

end Leaves

/-! ## Evaluations -/

/-- From the memory `m` the computation `x` comes to the nodes `ds`, up to the first fault, and leaves
nothing that is not due to the nodes that it comes to. Without a fault there is an answer for each of
them in the end. -/
def Follows {α : Type} (m : Memory) (x : Evaluation α) (ds : List Expr) : Prop :=
  ∃ V, V <+: ds ∧ Leaves V V m (x.run m).2 ∧
    ∀ a m', Gives m x a m' → V = ds ∧ ∀ d ∈ ds, m'.memo.lookup d.id ≠ none

theorem Follows.nil {α : Type} {x : Evaluation α} (h : (x.run m).2 = m) : Follows m x [] :=
  ⟨[], List.prefix_rfl, by rw [h]; exact .refl m, fun _ _ _ => ⟨rfl, List.forall_mem_nil _⟩⟩

theorem Follows.bind {α β : Type} {x : Evaluation α} {f : α → Evaluation β} {ds ds' : List Expr}
    (h : Follows m x ds) (h' : ∀ a m₁, Gives m x a m₁ → Follows m₁ (f a) ds') :
    Follows m (x >>= f) (ds ++ ds') := by
  obtain ⟨V, hfront, hleaves, hall⟩ := h
  rcases hrun : x.run m with ⟨fault | a, m₁⟩
  · have hbind : (x >>= f).run m = (.error fault, m₁) := by rw [run_bind, hrun]
    rw [hrun] at hleaves
    refine ⟨V, hfront.trans (List.prefix_append _ _), by rw [hbind]; exact hleaves,
      fun b m' hb => ?_⟩
    have hfault := hbind.symm.trans hb
    cases hfault
  · have hbind := run_bind_of_gives (k := f) hrun
    obtain ⟨rfl, hknown⟩ := hall a m₁ hrun
    obtain ⟨V', hfront', hleaves', hall'⟩ := h' a m₁ hrun
    rw [hrun] at hleaves
    refine ⟨V ++ V', (List.prefix_append_right_inj V).2 hfront', ?_, fun b m' hb => ?_⟩
    · rw [hbind]
      exact (hleaves.mono (List.subset_append_left V V')).trans
        (hleaves'.mono (List.subset_append_right V V'))
    · have hb' : Gives m₁ (f a) b m' := hbind.symm.trans hb
      obtain ⟨rfl, hknown'⟩ := hall' b m' hb'
      have hkept := hleaves'.kept
      rw [hb'] at hkept
      refine ⟨rfl, fun d hd => (List.mem_append.1 hd).elim (fun hd => ?_) (hknown' d)⟩
      exact fun hnone => hknown d hd (hkept.unknown hnone)

/-! ## What is remembered from part to part -/

theorem retains_of_mem_nodes (hp : p.Distinct) (he : e ∈ p.nodes) : Retains s e :=
  fun m => (frame_answer hp e he m).kept

theorem grows_bind {α β : Type} {x : Evaluation α} {f : α → Evaluation β}
    (h : ∀ a m₁, Gives m x a m₁ → m₁.Grows ((f a).run m₁).2) :
    (x.run m).2.Grows ((x >>= f).run m).2 := by
  rw [run_bind]
  rcases hrun : x.run m with ⟨fault | a, m₁⟩
  · exact .refl m₁
  · exact h a m₁ hrun

theorem grows_answerAll {es : List Expr} (hes : ∀ d ∈ es, Retains s d) (m : Memory) :
    m.Grows ((answerAll s es).run m).2 := by
  induction es generalizing m with
  | nil => exact .refl m
  | cons d rest ih =>
    have hrest := ih fun c hc => hes c (List.mem_cons_of_mem d hc)
    exact (hes d List.mem_cons_self m).trans (grows_bind fun _ m₁ _ => hrest m₁)

theorem grows_of_rule (hp : p.Distinct) (he : e ∈ p.nodes) (hm : m.memo.lookup e.id = none)
    (hbaseline : s.baseline e = none) :
    ((ruleBy (answer s) s e).run (m.asking e)).2.Grows ((answer s e).run m).2 := by
  have hnew := lookup_memo_fresh_self (s := s) hp he hm
  rw [run_answer_of_new hm]
  rw [fresh_of_none hbaseline] at hnew ⊢
  rcases hrun : (ruleBy (answer s) s e).run (m.asking e) with ⟨f | a, m₁⟩
  · exact .refl m₁
  · rw [hrun] at hnew
    exact .knowing hnew a

/-! ## From operands to nodes -/

theorem follows_answerAll {es : List Expr} (hes : ∀ d ∈ es, Retains s d)
    (hids : (es.flatMap Expr.ids).Nodup)
    (h : ∀ d ∈ es, ∀ m, (∀ i ∈ d.ids, before.memo.lookup i = m.memo.lookup i) →
      ((answer s d).run m).2.Grows after → Follows m (answer s d) (visited s before after d))
    (m : Memory) (hbefore : ∀ i ∈ es.flatMap Expr.ids, before.memo.lookup i = m.memo.lookup i)
    (hafter : ((answerAll s es).run m).2.Grows after) :
    Follows m (answerAll s es) (es.flatMap (visited s before after)) := by
  induction es generalizing m with
  | nil => exact .nil rfl
  | cons d rest ih =>
    have hrest : ∀ c ∈ rest, Retains s c := fun c hc => hes c (List.mem_cons_of_mem d hc)
    rw [List.flatMap_cons] at hids hbefore
    obtain ⟨-, hidsRest, hne⟩ := List.nodup_append.1 hids
    rw [List.flatMap_cons]
    have hd : ((answer s d).run m).2.Grows ((answerAll s (d :: rest)).run m).2 :=
      grows_bind fun _ m₁ _ => grows_answerAll hrest m₁
    refine Follows.bind (h d List.mem_cons_self m
      (fun i hi => hbefore i (List.mem_append_left _ hi)) (hd.trans hafter)) fun a m₁ ha => ?_
    refine ih hrest hidsRest (fun c hc => h c (List.mem_cons_of_mem d hc)) m₁ (fun i hi => ?_) ?_
    · -- The first node has not changed what is remembered for the others.
      rw [ha.lookup_memo fun hin => hne i hin i hi rfl]
      exact hbefore i (List.mem_append_right _ hi)
    · rw [answerAll, run_bind_of_gives ha] at hafter
      exact hafter

/-- What the end of the rule for a node does is due to the node, also when the answer is remembered
then. -/
theorem Ends.leaves {g : Evaluation Answer} (h : Ends s e g) {V : List Expr} (he : e ∈ V)
    (hm : m.memo.lookup e.id = none) :
    Leaves V [] m (match g.run m with
      | (.ok a, m₁) => m₁.knowing e a
      | (.error _, m₁) => m₁) := by
  cases h with
  | gives a => exact .knowing he hm a
  | faults f => exact .refl m
  | @assigns name hname a =>
    rw [run_assign]
    exact .assigned he hname hm a
  | @calls n callee xs optional heq =>
    obtain ⟨result, called, hrun⟩ := run_call s e callee
    have hcalled : Leaves V [] m (m.calling e called) := .called he called
    rw [hrun]
    cases result with
    | error f => exact hcalled
    | ok a => exact hcalled.trans (.knowing (m := m.calling e called) he hm a)

/-- A node whose rule evaluates some nodes and ends comes to itself and to what they come to. -/
theorem Follows.of_rule (hp : p.Distinct) (he : e ∈ p.nodes) (hm : m.memo.lookup e.id = none)
    (hbaseline : s.baseline e = none) {ds vs : List Expr} {g : Evaluation Answer}
    (hg : Ends s e g)
    (hrun : (ruleBy (answer s) s e).run (m.asking e) =
      (do answerAll s ds; g : Evaluation Answer).run (m.asking e))
    (h : Follows (m.asking e) (answerAll s ds) vs) : Follows m (answer s e) (e :: vs) := by
  obtain ⟨V, hfront, hleaves, hall⟩ := h
  have hanswer := run_answer_of_new (s := s) hm
  have hnew := lookup_memo_fresh_self (s := s) hp he hm
  rw [fresh_of_none hbaseline, hrun, run_bind] at hanswer hnew
  have hbelow : Leaves (e :: V) (e :: V) m ((answerAll s ds).run (m.asking e)).2 :=
    ((Leaves.asking m e).mono (List.cons_subset_cons e (List.nil_subset V))).trans
      (hleaves.mono (List.subset_cons_self e V))
  have hfront : e :: V <+: e :: vs := List.cons_prefix_cons.2 ⟨rfl, hfront⟩
  rcases hds : (answerAll s ds).run (m.asking e) with ⟨f | u, m₁⟩
  · rw [hds] at hanswer hbelow
    refine ⟨e :: V, hfront, by rw [hanswer]; exact hbelow, fun a m' ha => ?_⟩
    have hfault := hanswer.symm.trans ha
    cases hfault
  · rw [hds] at hanswer hbelow hnew
    obtain ⟨rfl, hknown⟩ := hall u m₁ hds
    -- The operands have left nothing for the node itself, so the end of the rule may remember it.
    have hends := hg.leaves (V := e :: V) List.mem_cons_self ((hg.grows m₁).unknown hnew)
    have hafter : ((answer s e).run m).2 = match g.run m₁ with
        | (.ok a, m₂) => m₂.knowing e a
        | (.error _, m₂) => m₂ := by
      rw [hanswer]
      dsimp only
      rcases g.run m₁ with ⟨f | a, m₂⟩ <;> rfl
    rw [← hafter] at hends
    refine ⟨e :: V, hfront, by simpa using hbelow.trans hends, fun a m' ha => ⟨rfl, fun d hd => ?_⟩⟩
    rcases List.mem_cons.1 hd with rfl | hd
    · rw [ha.remembered]
      exact Option.some_ne_none a
    · have hkept := hends.kept
      rw [ha] at hkept
      exact fun hnone => hknown d hd (hkept.unknown hnone)

/-- **The order of an evaluation.** An evaluation comes to the nodes that `visited` lists, in this
order and up to the first fault, and leaves nothing that is not due to them. -/
theorem follows_answer (hp : p.Distinct) (e : Expr) (he : e ∈ p.nodes) (m : Memory)
    (hbefore : ∀ i ∈ e.ids, before.memo.lookup i = m.memo.lookup i)
    (hafter : ((answer s e).run m).2.Grows after) :
    Follows m (answer s e) (visited s before after e) := by
  induction e using Expr.below_induction generalizing m with
  | h e ih =>
    have hself := hbefore e.id e.id_mem_ids
    cases hm : m.memo.lookup e.id with
    | some a =>
      rw [visited_of_known (by rw [hself, hm]; simp)]
      exact .nil (by rw [run_answer_of_known hm])
    | none =>
    rw [hm] at hself
    cases hbaseline : s.baseline e with
    | some reading =>
      rw [visited_of_some hself hbaseline]
      have hrun := run_answer_of_new (s := s) hm
      rw [fresh_of_some hbaseline] at hrun
      refine ⟨[e], List.prefix_rfl, ?_, fun a m' ha => ⟨rfl, fun d hd => ?_⟩⟩
      · rw [hrun]
        exact (Leaves.asking m e).trans (.knowing (m := m.asking e) List.mem_cons_self hm _)
      · rw [List.mem_singleton.1 hd, ha.remembered]
        exact Option.some_ne_none a
    | none =>
      rw [visited_of_none hself hbaseline]
      have hnodes : ∀ d : Expr, d.Below e → d ∈ p.nodes :=
        fun d hd => p.mem_nodes_of_within he hd.within
      have hretains : ∀ d : Expr, d.Below e → Retains s d :=
        fun d hd => retains_of_mem_nodes hp (hnodes d hd)
      have hrule := (grows_of_rule hp he hm hbaseline).trans hafter
      obtain ⟨g, hg, hrun⟩ := (passes_rule after (m.asking e) hretains).run hrule
      refine .of_rule hp he hm hbaseline hg hrun ?_
      have hbelow : ∀ d ∈ taken s after e, d.Below e := fun _ => below_of_mem_taken
      refine follows_answerAll (fun d hd => hretains d (hbelow d hd))
        ((Expr.nodup_operands (hp.nodup_ids he)).sublist ((taken_sublist s after e).flatMap _))
        (fun d hd m₁ => ih d (hbelow d hd) (hnodes d (hbelow d hd)) m₁) (m.asking e)
        (fun i hi => ?_) ?_
      · obtain ⟨d, hd, hi⟩ := List.mem_flatMap.1 hi
        exact hbefore i ((Expr.ids_sublist_of_within (hbelow d hd).within).subset hi)
      · rw [hrun] at hrule
        exact (grows_bind fun _ m₁ _ => hg.grows m₁).trans hrule

end Evaluation

end ScriptFold
