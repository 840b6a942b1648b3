import ScriptFold.Proofs.Evaluation.Frame

/-!
Requests to one evaluator.

An evaluator is asked for nodes of one program again and again, and some of its evaluations end in
faults. What is remembered for a node stays as it is, and nobody is asked about the node again. The
baseline and the handlers may answer otherwise from request to request: within one request the
baseline is asked about a node at most once and at most one call is answered at it, so that they
cannot contradict themselves.
-/

namespace ScriptFold

/-! ## Events -/

namespace Event

def node : Event → NodeName
  | asked n => n
  | called _ n => n

def isCall : Event → Bool
  | asked _ => false
  | called _ _ => true

/-- Both events are questions to the baseline, or both are macro calls, and about one node. -/
def Repeats (x y : Event) : Prop := x.node.id = y.node.id ∧ x.isCall = y.isCall

end Event

namespace Evaluation

variable {α β : Type} {s : Setting} {p : Program} {m m₁ : Memory} {e : Expr}

/-- The events of a computation that starts with the memory `m`, the latest first. They are about
nodes with identities in `K` for which nothing is remembered, none of them repeats another one, and
for all their nodes something is remembered in the end if there is no fault. -/
structure Asks (K : NodeId → Prop) (m : Memory) (x : Evaluation α) (new : List Event) : Prop where
  trace : (x.run m).2.trace = new ++ m.trace
  once : new.Pairwise fun y z => ¬ y.Repeats z
  within : ∀ event ∈ new, K event.node.id
  unknown : ∀ event ∈ new, m.memo.lookup event.node.id = none
  known : ∀ a m', Gives m x a m' → ∀ event ∈ new, m'.memo.lookup event.node.id ≠ none
  grows : m.Grows (x.run m).2

namespace Asks

variable {K K' : NodeId → Prop} {x : Evaluation α} {new new' : List Event}

theorem grows_to {result : Except Fault α} (h : Asks K m x new) (hx : x.run m = (result, m₁)) :
    m.Grows m₁ := by
  have hgrows := h.grows
  rw [hx] at hgrows
  exact hgrows

theorem of_still (htrace : (x.run m).2.trace = m.trace) (hmemo : (x.run m).2.memo = m.memo) :
    Asks K m x [] where
  trace := htrace
  once := .nil
  within _ h := by cases h
  unknown _ h := by cases h
  known _ _ _ _ h := by cases h
  grows id a h := by rw [hmemo, h]

theorem mono (h : Asks K m x new) (hK : ∀ id, K id → K' id) : Asks K' m x new :=
  { h with within := fun event he => hK _ (h.within event he) }

theorem append {a : α} {f : α → Evaluation β} (h : Asks K m x new) (ha : Gives m x a m₁)
    (h' : Asks K m₁ (f a) new') : Asks K m (x >>= f) (new' ++ new) := by
  have hgrows := h.grows_to ha
  have hrun := run_bind_of_gives (k := f) ha
  refine {
    trace := ?_
    once := ?_
    within := fun event he => (List.mem_append.1 he).elim (h'.within event) (h.within event)
    unknown := fun event he => ?_
    known := fun b m' hb event he => ?_
    grows := ?_ }
  · have htrace := h.trace
    rw [ha] at htrace
    rw [hrun, h'.trace, htrace, List.append_assoc]
  · refine List.pairwise_append.2 ⟨h'.once, h.once, fun y hy z hz hyz => ?_⟩
    have hz := h.known a m₁ ha z hz
    rw [← hyz.1] at hz
    exact hz (h'.unknown y hy)
  · rcases List.mem_append.1 he with he | he
    · exact hgrows.unknown (h'.unknown event he)
    · exact h.unknown event he
  · have hb' : Gives m₁ (f a) b m' := hrun.symm.trans hb
    rcases List.mem_append.1 he with he | he
    · exact h'.known b m' hb' event he
    · exact fun hnone => h.known a m₁ ha event he ((h'.grows_to hb').unknown hnone)
  · rw [hrun]
    exact hgrows.trans h'.grows

theorem of_fault {f : α → Evaluation β} {fault : Fault} (h : Asks K m x new)
    (hx : x.run m = (.error fault, m₁)) : Asks K m (x >>= f) new := by
  have hrun : (x >>= f).run m = (.error fault, m₁) := by rw [run_bind, hx]
  refine {
    trace := by rw [hrun, ← h.trace, hx]
    once := h.once
    within := h.within
    unknown := h.unknown
    known := fun b m' hb => ?_
    grows := by rw [hrun]; exact h.grows_to hx }
  have hfault := hrun.symm.trans hb
  cases hfault

end Asks

theorem composes_asks (K : NodeId → Prop) :
    Composes fun _ m x _ => ∃ new, Asks K m x new where
  pure m _ := ⟨[], .of_still rfl rfl⟩
  read m c := by
    unfold read
    cases c.reading <;> exact ⟨[], .of_still rfl rfl⟩
  bind {_ _ m x _ f _} h hf := by
    obtain ⟨new, h⟩ := h
    rcases hx : x.run m with ⟨fault | a, m₁⟩
    · exact ⟨new, h.of_fault hx⟩
    · obtain ⟨new', h'⟩ := hf a m₁ hx
      exact ⟨new' ++ new, h.append hx h'⟩

theorem asks_of_fresh (hp : p.Distinct) (he : e ∈ p.nodes) (hm : m.memo.lookup e.id = none)
    {new : List Event}
    (htrace : ((fresh s e (ruleBy (answer s) s e)).run (m.asking e)).2.trace =
      new ++ (m.asking e).trace)
    (honce : new.Pairwise fun y z => ¬ y.Repeats z)
    (hself : ∀ event ∈ new, ¬ event.Repeats (.asked e.nodeName))
    (hwithin : ∀ event ∈ new, e.HasId event.node.id)
    (hunknown : ∀ event ∈ new, m.memo.lookup event.node.id = none)
    (hknown : ∀ a m₁, Gives (m.asking e) (fresh s e (ruleBy (answer s) s e)) a m₁ →
      ∀ event ∈ new, event.node.id ≠ e.id → m₁.memo.lookup event.node.id ≠ none) :
    Asks e.HasId m (answer s e) (new ++ [.asked e.nodeName]) where
  trace := by
    have hrun := run_answer_of_new (s := s) hm
    rw [hrun, List.append_assoc]
    rcases h : (fresh s e (ruleBy (answer s) s e)).run (m.asking e) with ⟨f | a, m₁⟩
    · rw [h] at htrace
      exact htrace
    · rw [h] at htrace
      exact htrace
  once := by
    refine List.pairwise_append.2 ⟨honce, List.pairwise_singleton _ _, fun y hy z hz => ?_⟩
    rw [List.mem_singleton.1 hz]
    exact hself y hy
  within event h := by
    rcases List.mem_append.1 h with h | h
    · exact hwithin event h
    · rw [List.mem_singleton.1 h]
      exact ⟨e, .refl, rfl⟩
  unknown event h := by
    rcases List.mem_append.1 h with h | h
    · exact hunknown event h
    · rw [List.mem_singleton.1 h]
      exact hm
  known a m' ha event h := by
    rw [answer_eq] at ha
    rcases gives_once.1 ha with ⟨hknown, -⟩ | ⟨-, m₁, hrun, rfl⟩
    · rw [hm] at hknown
      cases hknown
    · rw [Memory.lookup_memo_knowing]
      split
      · exact Option.some_ne_none a
      · rename_i hne
        rcases List.mem_append.1 h with h | h
        · exact hknown a m₁ hrun event h hne
        · rw [List.mem_singleton.1 h] at hne
          exact absurd rfl hne
  grows := (frame_answer hp e he m).kept

theorem asks_call (hp : p.Distinct) (he : e ∈ p.nodes) (hm : m.memo.lookup e.id = none)
    (hbaseline : s.baseline e = none) {callee : Expr}
    (hrule : ruleBy (answer s) s e = call s e callee) :
    ∃ new, Asks e.HasId m (answer s e) new := by
  obtain ⟨result, called, hrun⟩ := run_call s e callee
  have hfresh : fresh s e (ruleBy (answer s) s e) = call s e callee :=
    (fresh_of_none hbaseline).trans hrule
  have hmem : ∀ event ∈ called.toList.map fun b => Event.called b e.nodeName,
      event.node = e.nodeName ∧ event.isCall = true := by
    intro event h
    obtain ⟨b, -, rfl⟩ := List.mem_map.1 h
    exact ⟨rfl, rfl⟩
  refine ⟨called.toList.map (.called · e.nodeName) ++ [.asked e.nodeName],
    asks_of_fresh hp he hm (by rw [hfresh, hrun]) ?_ ?_ ?_ ?_ ?_⟩
  · cases called <;> simp
  · rintro event h ⟨-, hkind⟩
    rw [(hmem event h).2] at hkind
    cases hkind
  · intro event h
    exact ⟨e, .refl, by rw [(hmem event h).1]; rfl⟩
  · intro event h
    rw [(hmem event h).1]
    exact hm
  · intro a m₁ _ event h hne
    rw [(hmem event h).1] at hne
    exact absurd rfl hne

/-- The rule for any other node asks about nodes below it only. -/
theorem asks_rule (hcall : ¬ ∃ n callee xs optional, e = .call n callee xs optional)
    (hoperand : ∀ m₁ d, Operand s m e m₁ d → ∃ new, Asks d.HasId m₁ (answer s d) new) :
    ∃ new, Asks (fun id => ∃ d : Expr, d.Below e ∧ d.id = id) m (ruleBy (answer s) s e) new := by
  let K : NodeId → Prop := fun id => ∃ d : Expr, d.Below e ∧ d.id = id
  have hbelow : ∀ m₁ d, Operand s m e m₁ d → ∃ new, Asks K m₁ (answer s d) new := by
    intro m₁ d hd
    obtain ⟨new, h⟩ := hoperand m₁ d hd
    exact ⟨new, h.mono fun id ⟨c, hc, hid⟩ => ⟨c, hd.below.of_within hc, hid⟩⟩
  refine @ruleBy_holds s m e _ (answer s) (composes_asks K) hbelow ?_ ?_ ?_
  · exact fun _ _ _ => ⟨[], .of_still rfl rfl⟩
  · exact fun n callee xs optional heq => absurd ⟨n, callee, xs, optional, heq⟩ hcall
  · intro n n' name value _ hvalue
    refine (composes_asks K).bind (f := fun a => do assign name a; return a)
      (g := fun a => do assign name a; return a) (y := answer s value) hvalue fun a m₁ _ => ?_
    refine ⟨[], .of_still ?_ ?_⟩
    · rw [run_assign]
      cases a <;> rfl
    · rw [run_assign]
      exact m₁.memo_assigned a name

theorem asks_answer (hp : p.Distinct) (e : Expr) (he : e ∈ p.nodes) (m : Memory) :
    ∃ new, Asks e.HasId m (answer s e) new := by
  induction e using Expr.below_induction generalizing m with
  | h e ih =>
    cases hm : m.memo.lookup e.id with
    | some a =>
      have hrun := run_answer_of_known (s := s) hm
      exact ⟨[], .of_still (by rw [hrun]) (by rw [hrun])⟩
    | none =>
    cases hbaseline : s.baseline e with
    | some reading =>
      refine ⟨[] ++ [.asked e.nodeName],
        asks_of_fresh hp he hm (by rw [fresh_of_some hbaseline]; rfl) .nil ?_ ?_ ?_ ?_⟩ <;> simp
    | none =>
    by_cases hcall : ∃ n callee xs optional, e = .call n callee xs optional
    · obtain ⟨n, callee, xs, optional, rfl⟩ := hcall
      exact asks_call hp he hm hbaseline rfl
    · obtain ⟨new, h⟩ := asks_rule (s := s) (m := m.asking e) hcall fun m₁ d hd =>
        ih d hd.below (hd.mem_nodes he) m₁
      have hfresh : fresh s e (ruleBy (answer s) s e) = ruleBy (answer s) s e :=
        fresh_of_none hbaseline
      rw [← hfresh] at h
      -- The nodes below this one have other identities.
      have hne : ∀ event ∈ new, event.node.id ≠ e.id := by
        intro event hevent
        obtain ⟨d, hd, hid⟩ := h.within event hevent
        rw [← hid]
        exact hp.id_ne_of_below he hd
      refine ⟨new ++ [.asked e.nodeName],
        asks_of_fresh hp he hm h.trace h.once ?_ ?_ h.unknown fun a m₁ ha event hevent _ =>
          h.known a m₁ ha event hevent⟩
      · rintro event hevent ⟨hid, -⟩
        exact hne event hevent hid
      · intro event hevent
        obtain ⟨d, hd, hid⟩ := h.within event hevent
        exact ⟨d, hd.within, hid⟩

end Evaluation

/-! ## Sequences of requests -/

open Evaluation (testOfNull)

/-- A request to evaluate a node, with the setting that its evaluation finds. -/
structure Request where
  setting : Setting
  node : Expr

namespace Request

/-- What an evaluator with the memory `m` answers. -/
def result (m : Memory) (r : Request) : Except Fault Answer :=
  ((⟨r.setting, m⟩ : Evaluator).evaluate r.node).1

/-- The memory after the request, also if it ends in a fault. -/
def after (m : Memory) (r : Request) : Memory :=
  ((⟨r.setting, m⟩ : Evaluator).evaluate r.node).2.memory

end Request

/-- The memory after some requests, one after another. -/
def Memory.afterAll (m : Memory) (requests : List Request) : Memory :=
  requests.foldl Request.after m

theorem Memory.afterAll_induction {P : Memory → Prop} {m : Memory} {requests : List Request}
    (hm : P m) (hstep : ∀ m r, r ∈ requests → P m → P (r.after m)) : P (m.afterAll requests) :=
  requests.foldlRecOn Request.after hm fun m h r hr => hstep m r hr h

/-- From `m` to `m'` all answers are kept, and what is asked is about nodes for which nothing is
remembered in `m`. -/
structure Memory.LeadsTo (m m' : Memory) : Prop where
  grows : m.Grows m'
  asked : ∃ new, m'.trace = new ++ m.trace ∧
    ∀ event ∈ new, m.memo.lookup event.node.id = none

namespace Memory.LeadsTo

variable {p : Program} {m m₁ m₂ : Memory}

theorem refl (m : Memory) : m.LeadsTo m := ⟨.refl m, [], rfl, List.forall_mem_nil _⟩

theorem trans (h : m.LeadsTo m₁) (h' : m₁.LeadsTo m₂) : m.LeadsTo m₂ where
  grows := h.grows.trans h'.grows
  asked := by
    obtain ⟨new, htrace, hnew⟩ := h.asked
    obtain ⟨new', htrace', hnew'⟩ := h'.asked
    refine ⟨new' ++ new, by rw [htrace', htrace, List.append_assoc], fun event he => ?_⟩
    rcases List.mem_append.1 he with he | he
    · exact h.grows.unknown (hnew' event he)
    · exact hnew event he

theorem after (hp : p.Distinct) (m : Memory) (r : Request) (hr : r.node ∈ p.nodes) :
    m.LeadsTo (r.after m) where
  grows := (Evaluation.frame_answer hp r.node hr m).kept
  asked := by
    obtain ⟨new, h⟩ := Evaluation.asks_answer (s := r.setting) hp r.node hr m
    exact ⟨new, h.trace, h.unknown⟩

theorem afterAll (hp : p.Distinct) (m : Memory) (requests : List Request)
    (hnodes : ∀ r ∈ requests, r.node ∈ p.nodes) : m.LeadsTo (m.afterAll requests) :=
  afterAll_induction (refl m) fun m' r hr h => h.trans (after hp m' r (hnodes r hr))

end Memory.LeadsTo

/-- **Memory and variables in a sequence of requests.** Let `m₁` and `m₂` be the memories before and
after one request of a sequence of requests for nodes of a program.

What is remembered in `m₁` stays the same to the end, and nothing is asked about the node any more;
within the one request nothing is asked twice. New answers are added for nodes within the requested
one only; for the node itself there is an answer exactly if the request does not end in a fault.
Only variables that are assigned within the node are changed. -/
theorem Program.memory_of_requests {p : Program} (hp : p.Distinct) (m : Memory)
    (earlier later : List Request) (r : Request)
    (hnodes : ∀ r' ∈ earlier ++ r :: later, r'.node ∈ p.nodes) :
    let m₁ := m.afterAll earlier
    let m₂ := r.after m₁
    let last := m.afterAll (earlier ++ r :: later)
    (∀ id a, m₁.memo.lookup id = some a → last.memo.lookup id = some a ∧
      ∃ new, last.trace = new ++ m₁.trace ∧ ∀ event ∈ new, event.node.id ≠ id) ∧
    (∃ new, m₂.trace = new ++ m₁.trace ∧ new.Pairwise fun y z => ¬ y.Repeats z) ∧
    (∀ id, m₁.memo.lookup id = none → m₂.memo.lookup id ≠ none → r.node.HasId id) ∧
    m₂.memo.lookup r.node.id = (r.result m₁).toOption ∧
    ∀ x, m₂.locals.lookup x ≠ m₁.locals.lookup x → r.node.Assigns x := by
  intro m₁ m₂ last
  have hr : r.node ∈ p.nodes := hnodes r (by simp)
  have hlast : last = m₁.afterAll (r :: later) := List.foldl_append
  have hleads : m₁.LeadsTo last := by
    rw [hlast]
    exact .afterAll hp m₁ _ fun r' h => hnodes r' (List.mem_append_right _ h)
  have hframe : Evaluation.Frame r.node.HasId r.node.Assigns m₁ m₂ :=
    Evaluation.frame_answer hp r.node hr m₁
  refine ⟨fun id a ha => ⟨hleads.grows id a ha, ?_⟩, ?_, fun id hid hnew => ?_, ?_, fun x hx => ?_⟩
  · obtain ⟨new, htrace, hnew⟩ := hleads.asked
    refine ⟨new, htrace, fun event he hid => ?_⟩
    have hnone := hnew event he
    rw [hid, ha] at hnone
    cases hnone
  · obtain ⟨new, hasks⟩ := Evaluation.asks_answer (s := r.setting) hp r.node hr m₁
    exact ⟨new, hasks.trace, hasks.once⟩
  · by_contra h
    exact hnew (hframe.added id hid h)
  · exact Evaluation.lookup_memo_self hp hr m₁
  · by_contra h
    exact hx (hframe.locals x h)

/-- A request that ends in a fault leaves an answer for the test, which stays, but none for the node
itself. -/
theorem Program.memory_of_faulting_request :
    let r : Request := ⟨⟨⟨[], []⟩, .nothing, none, 0⟩, testOfNull⟩
    let m := Memory.empty.afterAll [r]
    (∃ f, r.result m = .error f) ∧ (r.after m).memo.lookup 5 = none ∧
      ∃ a, m.memo.lookup 2 = some a ∧
        (Memory.empty.afterAll ([r] ++ r :: [r])).memo.lookup 2 = some a := by
  intro r m
  have hp : (Program.ofExpr testOfNull).Distinct := by decide
  have hnodes : ∀ r' ∈ [r] ++ r :: [r], r'.node ∈ (Program.ofExpr testOfNull).nodes := by
    intro r' h
    have hr : r' = r := by simpa using h
    rw [hr]
    exact mem_nodes_ofExpr.2 .refl
  obtain ⟨hkept, -, -, hself, -⟩ := memory_of_requests hp .empty [r] [r] r hnodes
  have hfault : r.result m = .error _ := rfl
  have hknown : m.memo.lookup 2 = some _ := rfl
  have hnone : (r.after m).memo.lookup 5 = none := hself.trans (congrArg Except.toOption hfault)
  exact ⟨⟨_, hfault⟩, hnone, _, hknown, (hkept 2 _ hknown).1⟩

end ScriptFold
