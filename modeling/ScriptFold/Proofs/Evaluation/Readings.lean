import ScriptFold.Proofs.Evaluation.Visits

/-!
What holds of all that is read.

A property of readings that is kept by the ways to put readings together is kept by evaluations:
if it holds of all that is remembered, then it holds of what an evaluation gives and of all that is
remembered after it. Tests are read during an evaluation, so the same argument bounds the faults
that it ends in.
-/

namespace ScriptFold

variable {P : Reading → Prop} {F : Fault → Prop} {s : Setting}

/-- The reading of an answer has the property, if the answer is known. -/
def Answer.Holds (P : Reading → Prop) (a : Answer) : Prop := ∀ c, a = some c → P c.reading

theorem Answer.holds_none : Answer.Holds P none := by
  rintro _ ⟨⟩

theorem Answer.holds_some {c : Cell} (h : P c.reading) : Answer.Holds P (some c) := by
  rintro _ ⟨⟩
  exact h

/-- All that is remembered has the property. -/
structure Memory.Holds (P : Reading → Prop) (m : Memory) : Prop where
  memo : ∀ id a, m.memo.lookup id = some a → a.Holds P
  locals : ∀ x, Answer.Holds P (m.locals.lookup x)

namespace Memory.Holds

variable {m : Memory}

theorem empty : Memory.empty.Holds P where
  memo := by
    rintro id a ⟨⟩
  locals x := Answer.holds_none

theorem noting (h : m.Holds P) (trace : List Event) : Memory.Holds P { m with trace := trace } :=
  ⟨h.memo, h.locals⟩

theorem assigned (h : m.Holds P) (name : String) {a : Answer} (ha : a.Holds P) :
    (m.assigned name a).Holds P where
  memo := by
    rw [Memory.memo_assigned]
    exact h.memo
  locals x := by
    rw [Memory.lookup_locals_assigned]
    split
    · exact ha
    · exact h.locals x

theorem knowing (h : m.Holds P) (e : Expr) {a : Answer} (ha : a.Holds P) :
    (m.knowing e a).Holds P where
  memo id b hb := by
    rw [Memory.lookup_memo_knowing] at hb
    split at hb
    · cases hb
      exact ha
    · exact h.memo id b hb
  locals := h.locals

end Memory.Holds

/-- The property `P` holds of what is not read from other readings, and is kept by the ways to read
that rules use. What a test or a call may end in has the property `F`. -/
structure Setting.Keeps (s : Setting) (P : Reading → Prop) (F : Fault → Prop) : Prop where
  baseline : ∀ e r, s.baseline e = some r → P r
  literal : ∀ e v, Baseline.literal? e = some v → P (.ok v)
  deferred : ∀ name, P (.error (.deferred name))
  macroValue : ∀ e json?, P (.ok (Evaluation.macroValue s e json?))
  array : ∀ i items, (∀ r ∈ items, P r) → P (.array i items)
  object : ∀ i entries, (∀ e ∈ entries, P e.1 ∧ P e.2) → P (.object i entries)
  member : ∀ optional o k, P o → P k → P (.member optional o k)
  unary : ∀ (op : UnaryOp) f a, op.function? = some f → P a → P (.unary f a)
  binary : ∀ (op : BinaryOp) f a b, op.function? = some f → P a → P b → P (.binary f a b)
  logical : ∀ (op : LogicalOp) a b, P a → P b → P (.binary op.function a b)
  read : ∀ f, P (.error f) → F f
  handlers : ∀ context, s.context = some context → ∀ m n callee arguments optional f,
    context.handlers m (.call n callee arguments optional) context.state = .error f → F (.call f)

theorem Setting.Keeps.keyOf (h : s.Keeps P F) (computed : Bool) (e : Expr) {a : Answer}
    (ha : a.Holds P) : Answer.Holds P (s.keyOf computed e a) := by
  cases computed with
  | true => exact ha
  | false =>
    cases a with
    | some c => exact ha
    | none =>
      cases hname : e.name? with
      | none =>
        have : s.keyOf false e none = none := by simp [Setting.keyOf, Setting.spelled, hname]
        rw [this]
        exact Answer.holds_none
      | some name =>
        have : s.keyOf false e none = some (s.cell e (.ok (.string name))) := by
          simp [Setting.keyOf, Setting.spelled, hname]
        rw [this]
        exact Answer.holds_some (h.literal (.string ⟨0, .nowhere⟩ name) _ rfl)

namespace Evaluation

variable {α β : Type} {Q : α → Prop} {R : β → Prop} {e : Expr}

/-- What a run ends in: `P` holds of what is remembered, `Q` of the result, and `F` of the fault. -/
structure Outcome (P : Reading → Prop) (F : Fault → Prop) (Q : α → Prop)
    (outcome : Except Fault α × Memory) : Prop where
  memory : outcome.2.Holds P
  result : ∀ a, outcome.1 = .ok a → Q a
  fault : ∀ f, outcome.1 = .error f → F f

/-- Each run of the computation from a memory of which `P` holds ends so. -/
def Respects (P : Reading → Prop) (F : Fault → Prop) (Q : α → Prop) (x : Evaluation α) : Prop :=
  ∀ m, m.Holds P → Outcome P F Q (x.run m)

section Combinators

theorem Outcome.ok {m : Memory} (hm : m.Holds P) {a : α} (ha : Q a) :
    Outcome P F Q (.ok a, m) where
  memory := hm
  result := by
    rintro _ ⟨⟩
    exact ha
  fault := by
    rintro _ ⟨⟩

theorem Outcome.error {m : Memory} (hm : m.Holds P) {f : Fault} (hf : F f) :
    Outcome P F Q (.error f, m) where
  memory := hm
  result := by
    rintro _ ⟨⟩
  fault := by
    rintro _ ⟨⟩
    exact hf

theorem respects_pure {a : α} (ha : Q a) : Respects P F Q (pure a) :=
  fun _ hm => .ok hm ha

theorem respects_bind {x : Evaluation α} {g : α → Evaluation β} (hx : Respects P F Q x)
    (hg : ∀ a, Q a → Respects P F R (g a)) : Respects P F R (x >>= g) := by
  intro m hm
  have h := hx m hm
  rw [run_bind]
  rcases hrun : x.run m with ⟨f | a, m₁⟩ <;> rw [hrun] at h
  · exact .error h.memory (h.fault f rfl)
  · exact hg a (h.result a rfl) m₁ h.memory

theorem respects_known {x : Evaluation Answer} {g : Answer → Evaluation Answer}
    (hx : Respects P F (Answer.Holds P) x) (hnone : g none = pure none)
    (hg : ∀ c : Cell, P c.reading → Respects P F (Answer.Holds P) (g (some c))) :
    Respects P F (Answer.Holds P) (x >>= g) := by
  refine respects_bind hx fun a ha => ?_
  cases a with
  | none =>
    rw [hnone]
    exact respects_pure Answer.holds_none
  | some c => exact hg c (ha c rfl)

theorem respects_local? {name : String} : Respects P F (Answer.Holds P) (local? name) :=
  fun _ hm => .ok hm (hm.locals name)

theorem respects_assign {name : String} {a : Answer} (ha : a.Holds P) :
    Respects P F (Answer.Holds P) (do assign name a; return a) := by
  intro m hm
  rw [run_assign]
  exact .ok (hm.assigned name ha) ha

variable (hs : s.Keeps P F)
include hs

theorem respects_read {c : Cell} (hc : P c.reading) :
    Respects P F (fun _ => True) (read c) := by
  intro m hm
  unfold read
  cases h : c.reading with
  | ok v => exact .ok hm trivial
  | error f =>
    rw [h] at hc
    exact .error hm (hs.read f hc)

theorem respects_call {n : Node} {callee : Expr} {arguments : List Expr} {optional : Bool} :
    Respects P F (Answer.Holds P) (call s (.call n callee arguments optional) callee) := by
  intro m hm
  unfold call
  split
  · exact .ok hm Answer.holds_none
  rename_i context hcontext
  split
  · exact .ok hm (Answer.holds_some (hs.deferred _))
  split
  · exact .ok hm Answer.holds_none
  rename_i b _
  let event : Event := .called b (Expr.nodeName (.call n callee arguments optional))
  have hcalled := hm.noting (event :: m.trace)
  cases hjson : context.handlers b (.call n callee arguments optional) context.state with
  | ok json? => exact .ok hcalled (Answer.holds_some (hs.macroValue _ json?))
  | error f => exact .error hcalled (hs.handlers context hcontext b _ _ _ _ f hjson)

theorem respects_once {rule : Evaluation Answer} (hrule : Respects P F (Answer.Holds P) rule) :
    Respects P F (Answer.Holds P) (once s e rule) := by
  intro m hm
  cases hmemo : m.memo.lookup e.id with
  | some a =>
    rw [run_once_of_known hmemo]
    exact .ok hm (hm.memo e.id a hmemo)
  | none =>
    have hfresh : Respects P F (Answer.Holds P) (fresh s e rule) := by
      unfold fresh
      split
      · rename_i r hr
        exact respects_pure (Answer.holds_some (hs.baseline e r hr))
      · exact hrule
    have h := hfresh (m.asking e) (hm.noting _)
    rw [run_once_of_new hmemo]
    rcases hrun : (fresh s e rule).run (m.asking e) with ⟨f | a, m₁⟩ <;> rw [hrun] at h
    · exact .error h.memory (h.fault f rfl)
    · exact .ok (h.memory.knowing e (h.result a rfl)) (h.result a rfl)

end Combinators

/-! ## Rules -/

section Rules

variable {ev : Expr → Evaluation Answer} (hs : s.Keeps P F)

theorem respects_elementsBy {elements : List (Option Expr)}
    (hev : ∀ d, some d ∈ elements → Respects P F (Answer.Holds P) (ev d)) :
    Respects P F (fun items => ∀ cells, items = some cells → ∀ c ∈ cells, P c.reading)
      (elementsBy ev elements) := by
  induction elements with
  | nil => exact respects_pure (by rintro _ ⟨⟩; exact List.forall_mem_nil _)
  | cons element rest ih =>
    have hrest := ih fun d hd => hev d (List.mem_cons_of_mem element hd)
    cases element with
    | none => exact respects_bind hrest fun _ _ => respects_pure (by rintro _ ⟨⟩)
    | some element =>
      refine respects_bind (hev element List.mem_cons_self) fun item hitem => ?_
      refine respects_bind hrest fun items hitems => respects_pure fun cells hcells => ?_
      obtain ⟨c, hc, hcells⟩ := Option.bind_eq_some_iff.1 hcells
      obtain ⟨more, hmore, hcells⟩ := Option.bind_eq_some_iff.1 hcells
      cases hcells
      exact List.forall_mem_cons.2 ⟨hitem c hc, hitems more hmore⟩

include hs

theorem respects_membersBy {members : List Expr}
    (hev : ∀ q ∈ members, ∀ d ∈ q.children, Respects P F (Answer.Holds P) (ev d)) :
    Respects P F
      (fun entries => ∀ cells, entries = some cells → ∀ c ∈ cells, P c.1.reading ∧ P c.2.reading)
      (membersBy ev s members) := by
  induction members with
  | nil => exact respects_pure (by rintro _ ⟨⟩; exact List.forall_mem_nil _)
  | cons member rest ih =>
    have hrest := ih fun q hq => hev q (List.mem_cons_of_mem member hq)
    have hmember := hev member List.mem_cons_self
    cases member with
    | property n key value computed shorthand =>
      refine respects_bind (hmember key (by simp [Expr.children])) fun k hk => ?_
      refine respects_bind (hmember value (by simp [Expr.children])) fun v hv => ?_
      refine respects_bind hrest fun entries hentries => respects_pure fun cells hcells => ?_
      obtain ⟨c, hc, hcells⟩ := Option.bind_eq_some_iff.1 hcells
      obtain ⟨d, hd, hcells⟩ := Option.bind_eq_some_iff.1 hcells
      obtain ⟨more, hmore, hcells⟩ := Option.bind_eq_some_iff.1 hcells
      cases hcells
      exact List.forall_mem_cons.2
        ⟨⟨hs.keyOf computed key hk c hc, hv d hd⟩, hentries more hmore⟩
    | _ => exact respects_pure (by rintro _ ⟨⟩)

theorem respects_ruleBy (hev : ∀ d : Expr, d.Below e → Respects P F (Answer.Holds P) (ev d)) :
    Respects P F (Answer.Holds P) (ruleBy ev s e) := by
  have hchild : ∀ d ∈ e.children, Respects P F (Answer.Holds P) (ev d) :=
    fun d hd => hev d (.of_mem_children hd)
  have hnone : Respects P F (Answer.Holds P) (pure none) := respects_pure Answer.holds_none
  cases e with
  | null n => exact respects_pure (Answer.holds_some (hs.literal (.null n) _ rfl))
  | bool n b => exact respects_pure (Answer.holds_some (hs.literal (.bool n b) _ rfl))
  | number n x => exact respects_pure (Answer.holds_some (hs.literal (.number n x) _ rfl))
  | string n t => exact respects_pure (Answer.holds_some (hs.literal (.string n t) _ rfl))
  | property | spread | sequence | invalid => exact hnone
  | ident n name => exact respects_local?
  | array n elements =>
    have helements := respects_elementsBy fun d hd => hchild d (by simpa [Expr.children] using hd)
    refine respects_bind helements fun items hitems => ?_
    cases items with
    | none => exact hnone
    | some cells =>
      refine respects_pure (Answer.holds_some (hs.array _ _ fun r hr => ?_))
      obtain ⟨c, hc, rfl⟩ := List.mem_map.1 hr
      exact hitems cells rfl c hc
  | object n members =>
    have hmembers := respects_membersBy hs fun q hq d hd => hev d ⟨q, hq, .child hd⟩
    refine respects_bind hmembers fun entries hentries => ?_
    cases entries with
    | none => exact hnone
    | some cells =>
      refine respects_pure (Answer.holds_some (hs.object _ _ fun r hr => ?_))
      obtain ⟨c, hc, rfl⟩ := List.mem_map.1 hr
      exact hentries cells rfl c hc
  | member n object property computed optional =>
    refine respects_bind (hchild property (by simp [Expr.children])) fun k hk => ?_
    cases hkey : s.keyOf computed property k with
    | none => exact hnone
    | some key =>
      have hkey := hs.keyOf computed property hk key hkey
      exact respects_known (hchild object (by simp [Expr.children])) rfl fun o ho =>
        respects_pure (Answer.holds_some (hs.member optional _ _ ho hkey))
  | call n callee arguments optional => exact respects_call hs
  | assign n op target value =>
    have hvalue := hchild value (by simp [Expr.children])
    -- Only a simple assignment to a name has a rule.
    cases op with
    | simple =>
      cases target with
      | ident n' name => exact respects_bind hvalue fun a ha => respects_assign ha
      | _ => exact hnone
    | _ => exact hnone
  | binary n op left right =>
    simp only [ruleBy]
    cases hop : op.function? with
    | none => exact hnone
    | some f =>
      refine respects_known (hchild left (by simp [Expr.children])) rfl fun a ha => ?_
      refine respects_known (hchild right (by simp [Expr.children])) rfl fun b hb => ?_
      exact respects_pure (Answer.holds_some (hs.binary op f _ _ hop ha hb))
  | logical n op left right =>
    refine respects_known (hchild left (by simp [Expr.children])) rfl fun a ha => ?_
    refine respects_known (hchild right (by simp [Expr.children])) rfl fun b hb => ?_
    exact respects_pure (Answer.holds_some (hs.logical op _ _ ha hb))
  | unary n op argument =>
    simp only [ruleBy]
    cases hop : op.function? with
    | none => exact hnone
    | some f =>
      refine respects_known (hchild argument (by simp [Expr.children])) rfl fun a ha => ?_
      exact respects_pure (Answer.holds_some (hs.unary op f _ hop ha))
  | conditional n test consequent alternate =>
    refine respects_known (hchild test (by simp [Expr.children])) rfl fun t ht => ?_
    refine respects_bind (respects_read hs ht) fun v _ => ?_
    split
    · exact hchild consequent (by simp [Expr.children])
    · exact hchild alternate (by simp [Expr.children])

/-- **What holds of all readings.** A property that is kept by the ways to read is kept by
evaluations. -/
theorem respects_answer (e : Expr) : Respects P F (Answer.Holds P) (answer s e) := by
  induction e using Expr.below_induction with
  | h e ih =>
    rw [answer_eq]
    exact respects_once hs (respects_ruleBy hs ih)

end Rules

end Evaluation

end ScriptFold
