import ScriptFold.Proofs.Evaluation.Accesses
import ScriptFold.Proofs.Grammar.Numbering

/-!
A read gives what was recorded last.

A tree whose nodes are new to the memory is evaluated node by node, so nothing that is remembered
comes between a read and the variable. Every read then gives the value that was recorded last,
and writes that are passed change nothing.
-/

namespace ScriptFold

/-! ## Values of variables -/

def store (L : String → Answer) (x : String) (a : Answer) : String → Answer :=
  fun y => if y = x ∧ a.isSome then a else L y

def values (L : String → Answer) : List Access → String → Answer
  | [] => L
  | .read _ _ :: rest => values L rest
  | .write x a :: rest => values (store L x a) rest

/-- Every read gives the value that the variable has by then. -/
def Faithful (L : String → Answer) : List Access → Prop
  | [] => True
  | .read x a :: rest => a = L x ∧ Faithful L rest
  | .write x a :: rest => Faithful (store L x a) rest

theorem store_none (L : String → Answer) (x : String) : store L x none = L := by
  funext y
  simp [store]

theorem values_append (L : String → Answer) (as bs : List Access) :
    values L (as ++ bs) = values (values L as) bs := by
  induction as generalizing L with
  | nil => rfl
  | cons a rest ih => cases a <;> exact ih _

theorem faithful_append {L : String → Answer} {as bs : List Access} :
    Faithful L (as ++ bs) ↔ Faithful L as ∧ Faithful (values L as) bs := by
  induction as generalizing L with
  | nil => exact ⟨fun h => ⟨trivial, h⟩, fun h => h.2⟩
  | cons a rest ih =>
    cases a with
    | read x a => exact (and_congr_right' ih).trans and_assoc.symm
    | write x a => exact ih

theorem values_passed (L : String → Answer) (names : List String) : values L (passed names) = L := by
  induction names with
  | nil => rfl
  | cons x rest ih =>
    calc values L (passed (x :: rest)) = values (store L x none) (passed rest) := rfl
      _ = values L (passed rest) := by rw [store_none]
      _ = L := ih

theorem faithful_passed (L : String → Answer) (names : List String) : Faithful L (passed names) := by
  induction names with
  | nil => trivial
  | cons x rest ih =>
    show Faithful (store L x none) (passed rest)
    rw [store_none]
    exact ih

def Memory.values (m : Memory) : String → Answer := fun x => m.locals.lookup x

theorem Memory.values_assigned (m : Memory) (x : String) (a : Answer) :
    (m.assigned x a).values = store m.values x a :=
  funext fun y => m.lookup_locals_assigned a x y

namespace Evaluation

variable {α β : Type} {s : Setting} {F G : List NodeId} {m m' : Memory}

/-! ## Computations and their accesses -/

def Fresh (F : List NodeId) (m : Memory) : Prop := ∀ id ∈ F, m.memo.lookup id = none

/-- A computation accesses variables as a list says and remembers answers for nodes in `F` only, if
these are new to the memory. -/
structure Logged (F : List NodeId) (x : Evaluation α) (log : Memory → List Access) : Prop where
  faithful : ∀ m, Fresh F m → Faithful m.values (log m)
  values : ∀ m a m', Fresh F m → Gives m x a m' → values m.values (log m) = m'.values
  frame : ∀ m a m', Gives m x a m' → ∀ id ∉ F, m'.memo.lookup id = m.memo.lookup id

theorem Logged.mono {x : Evaluation α} {log : Memory → List Access} (h : Logged F x log)
    (hFG : F ⊆ G) : Logged G x log where
  faithful m hm := h.faithful m fun id hid => hm id (hFG hid)
  values m a m' hm := h.values m a m' fun id hid => hm id (hFG hid)
  frame m a m' ha id hid := h.frame m a m' ha id fun hF => hid (hFG hF)

theorem logged_still {x : Evaluation α} {log : Memory → List Access}
    (hx : ∀ m a m', Gives m x a m' → m'.locals = m.locals ∧ m'.memo = m.memo)
    (hfaithful : ∀ m, Faithful m.values (log m))
    (hvalues : ∀ m, values m.values (log m) = m.values) : Logged F x log where
  faithful m _ := hfaithful m
  values m a m' _ h := by
    rw [hvalues m]
    exact funext fun y => by rw [Memory.values, Memory.values, (hx m a m' h).1]
  frame m a m' h id _ := by rw [(hx m a m' h).2]

theorem logged_pure {a : α} {names : List String} : Logged F (pure a) fun _ => passed names := by
  refine logged_still (fun m b m' h => ?_) (fun m => faithful_passed m.values names)
    fun m => values_passed m.values names
  obtain ⟨-, rfl⟩ := gives_pure.1 h
  exact ⟨rfl, rfl⟩

theorem logged_done {a : α} : Logged F (pure a) fun _ => [] := by
  have h : Logged F (pure a) fun _ => passed [] := logged_pure
  exact h

theorem logged_local? {name : String} : Logged F (local? name) fun _ => [] := by
  refine logged_still (fun m b m' h => ?_) (fun m => trivial) fun m => rfl
  obtain ⟨-, rfl⟩ := gives_local?.1 h
  exact ⟨rfl, rfl⟩

/-- No part of a call is evaluated here. -/
theorem logged_call {e callee : Expr} {names : List String} :
    Logged F (call s e callee) fun _ => passed names := by
  unfold call
  split
  · exact logged_pure
  split
  · exact logged_pure
  split
  · exact logged_pure
  refine logged_still (fun m b m' h => ?_) (fun m => faithful_passed m.values names)
    fun m => values_passed m.values names
  obtain ⟨_, m₁, hn, h⟩ := gives_bind.1 h
  rw [gives_note.1 hn] at h
  split at h
  · obtain ⟨-, rfl⟩ := gives_pure.1 h
    exact ⟨rfl, rfl⟩
  · exact absurd h gives_throw

theorem andThen_of_gives {x : Evaluation α} {a : α} {log : α → Memory → List Access}
    (h : Gives m x a m') : andThen x m log = log a m' := by
  unfold andThen
  rw [h]

theorem andThen_cases (x : Evaluation α) (m : Memory) (log : α → Memory → List Access) :
    (∃ a m', Gives m x a m' ∧ andThen x m log = log a m') ∨ andThen x m log = [] := by
  unfold andThen Gives
  rcases x.run m with ⟨f | a, m'⟩
  · exact .inr rfl
  · exact .inl ⟨a, m', rfl, rfl⟩

theorem logged_bind {x : Evaluation α} {f : α → Evaluation β} {log : Memory → List Access}
    {logf : α → Memory → List Access} (hx : Logged F x log) (hf : ∀ a, Logged G (f a) (logf a))
    (hFG : ∀ i ∈ F, ∀ j ∈ G, i ≠ j) :
    Logged (F ++ G) (x >>= f) fun m => log m ++ andThen x m logf := by
  have hfresh : ∀ {m a m₁}, Fresh (F ++ G) m → Gives m x a m₁ → Fresh F m ∧ Fresh G m₁ := by
    intro m a m₁ hm ha
    refine ⟨fun id hid => hm id (List.mem_append_left G hid), fun id hid => ?_⟩
    rw [hx.frame m a m₁ ha id fun hF => hFG id hF id hid rfl]
    exact hm id (List.mem_append_right F hid)
  constructor
  case faithful =>
    intro m hm
    have hF : Fresh F m := fun id hid => hm id (List.mem_append_left G hid)
    refine faithful_append.2 ⟨hx.faithful m hF, ?_⟩
    rcases andThen_cases x m logf with ⟨a, m₁, ha, hlog⟩ | hlog
    · rw [hlog, hx.values m a m₁ hF ha]
      exact (hf a).faithful m₁ (hfresh hm ha).2
    · rw [hlog]
      trivial
  case values =>
    intro m b m' hm h
    obtain ⟨a, m₁, ha, hb⟩ := gives_bind.1 h
    obtain ⟨hF, hG⟩ := hfresh hm ha
    rw [andThen_of_gives ha, values_append, hx.values m a m₁ hF ha]
    exact (hf a).values m₁ b m' hG hb
  case frame =>
    intro m b m' h id hid
    obtain ⟨a, m₁, ha, hb⟩ := gives_bind.1 h
    rw [(hf a).frame m₁ b m' hb id fun hG => hid (List.mem_append_right F hG)]
    exact hx.frame m a m₁ ha id fun hF => hid (List.mem_append_left G hF)

theorem logged_map {x : Evaluation α} {g : α → Evaluation β} {log : Memory → List Access}
    (hx : Logged F x log) (hg : ∀ a, ∃ b, g a = pure b) : Logged F (x >>= g) log := by
  have hsame : ∀ {m b m'}, Gives m (x >>= g) b m' → ∃ a, Gives m x a m' := by
    intro m b m' h
    obtain ⟨a, m₁, ha, h⟩ := gives_bind.1 h
    obtain ⟨b', hb⟩ := hg a
    rw [hb] at h
    obtain ⟨-, rfl⟩ := gives_pure.1 h
    exact ⟨a, ha⟩
  constructor
  case faithful => exact hx.faithful
  case values =>
    intro m b m' hm h
    obtain ⟨a, ha⟩ := hsame h
    exact hx.values m a m' hm ha
  case frame =>
    intro m b m' h
    obtain ⟨a, ha⟩ := hsame h
    exact hx.frame m a m' ha

/-- What follows an operand is done only if the operand is known; otherwise its text is passed. -/
theorem logged_known {x : Evaluation (Option α)} {g : Option α → Evaluation (Option β)}
    {log : Memory → List Access} {logg : Memory → List Access} {names : List String}
    (hx : Logged F x log) (hnone : g none = pure none) (hsome : ∀ a, Logged G (g (some a)) logg)
    (hFG : ∀ i ∈ F, ∀ j ∈ G, i ≠ j) :
    Logged (F ++ G) (x >>= g) fun m =>
      log m ++ andThen x m fun a m => if a.isSome then logg m else passed names := by
  refine logged_bind hx (fun a => ?_) hFG
  cases a with
  | none =>
    rw [hnone]
    exact logged_pure
  | some a => exact hsome a

theorem logged_read {t : Cell} {f : Value → Evaluation α} {log : Value → Memory → List Access}
    (hf : ∀ v, Logged F (f v) (log v)) :
    Logged F (read t >>= f) fun m =>
      match t.reading with
      | .error _ => []
      | .ok v => log v m := by
  constructor
  case faithful =>
    intro m hm
    cases t.reading with
    | error f => trivial
    | ok v => exact (hf v).faithful m hm
  case values =>
    intro m a m' hm h
    obtain ⟨v, m₁, hv, h⟩ := gives_bind.1 h
    obtain ⟨hread, rfl⟩ := gives_read.1 hv
    rw [hread]
    exact (hf v).values m a m' hm h
  case frame =>
    intro m a m' h
    obtain ⟨v, m₁, hv, h⟩ := gives_bind.1 h
    obtain ⟨-, rfl⟩ := gives_read.1 hv
    exact (hf v).frame m a m' h

theorem logged_assign {name : String} {a : Answer} :
    Logged F (do assign name a
                 return a) fun _ => [.write name a] where
  faithful _ _ := trivial
  values m b m' _ h := by
    obtain ⟨_, m₁, hu, h⟩ := gives_bind.1 h
    obtain ⟨-, rfl⟩ := gives_pure.1 h
    rw [gives_assign.1 hu, Memory.values_assigned]
    rfl
  frame m b m' h id _ := by
    obtain ⟨_, m₁, hu, h⟩ := gives_bind.1 h
    obtain ⟨-, rfl⟩ := gives_pure.1 h
    rw [gives_assign.1 hu, Memory.memo_assigned]

/-- What is logged of a node that nothing is remembered for, once it is asked for. -/
theorem logged_once_of_fresh {e : Expr} {rule : Evaluation Answer}
    {log logFresh : Memory → List Access} (hfresh : Logged F (fresh s e rule) logFresh)
    (hlog : ∀ m, log m = logFresh (m.asking e)) :
    Logged (F ++ [e.id]) (once s e rule) log := by
  have hF : ∀ {m}, Fresh (F ++ [e.id]) m → Fresh F (m.asking e) :=
    fun hm id hid => hm id (List.mem_append_left _ hid)
  constructor
  case faithful =>
    intro m hm
    rw [hlog]
    exact hfresh.faithful (m.asking e) (hF hm)
  case values =>
    intro m a m' hm h
    rw [hlog]
    rcases gives_once.1 h with ⟨hhit, -⟩ | ⟨-, m₁, hf, rfl⟩
    · rw [hm e.id (by simp)] at hhit
      cases hhit
    · exact hfresh.values (m.asking e) a m₁ (hF hm) hf
  case frame =>
    intro m a m' h id hid
    rcases gives_once.1 h with ⟨-, rfl⟩ | ⟨-, m₁, hf, rfl⟩
    · rfl
    · have hne : id ≠ e.id := fun heq => hid (by simp [heq])
      rw [Memory.lookup_memo_knowing, if_neg hne]
      exact hfresh.frame (m.asking e) a m₁ hf id fun hF => hid (List.mem_append_left _ hF)

theorem logged_once {e : Expr} {rule : Evaluation Answer} {log : Memory → List Access}
    (hrule : Logged F rule log) (hG : G = F ++ [e.id]) :
    Logged G (once s e rule) fun m => byRule s e m log := by
  subst hG
  cases hbaseline : s.baseline e with
  | some reading =>
    have hfresh : Logged F (fresh s e rule) fun _ => passed e.writes := by
      unfold fresh
      rw [hbaseline]
      exact logged_pure
    exact logged_once_of_fresh hfresh fun m => by rw [byRule, hbaseline]
  | none =>
    have hfresh : Logged F (fresh s e rule) log := by
      unfold fresh
      rw [hbaseline]
      exact hrule
    exact logged_once_of_fresh hfresh fun m => by rw [byRule, hbaseline]

theorem logged_passing {x : Evaluation α} {log : Memory → List Access} {names : List String}
    (hx : Logged F x log) : Logged F x fun m => passed names ++ log m where
  faithful m hm := by
    rw [faithful_append, values_passed]
    exact ⟨faithful_passed m.values names, hx.faithful m hm⟩
  values m a m' hm h := by
    rw [values_append, values_passed]
    exact hx.values m a m' hm h
  frame := hx.frame

/-- The evaluation of a name leaves variables as they are. -/
theorem logged_name {n : Node} {name : String} :
    Logged [n.id] (answer s (.ident n name)) fun _ => [] := by
  have honce : Logged [n.id] (once s (.ident n name) (local? name)) fun m =>
      byRule s (.ident n name) m fun _ => [] := logged_once (F := []) logged_local? rfl
  have hnone : (fun m => byRule s (.ident n name) m fun _ => []) = fun _ => [] := by
    funext m
    unfold byRule
    split <;> rfl
  rw [hnone] at honce
  simp only [answer]
  exact honce

theorem answer_ident_eq {n : Node} {name : String} {a : Answer}
    (hm : Fresh [n.id] m) (hb : s.baseline (.ident n name) = none)
    (h : Gives m (answer s (.ident n name)) a m') : a = m.values name := by
  simp only [answer] at h
  rcases gives_once.1 h with ⟨hhit, -⟩ | ⟨-, m₁, hf, -⟩
  · rw [show m.memo.lookup (Expr.ident n name).id = none from hm n.id (by simp)] at hhit
    cases hhit
  · simp only [fresh, hb] at hf
    exact (gives_local?.1 hf).1.symm

theorem logged_ident {n : Node} {name : String} :
    Logged [n.id] (answer s (.ident n name)) fun m => accesses s m (.ident n name) := by
  have hstill : ∀ m, values m.values (accesses s m (.ident n name)) = m.values := by
    intro m
    simp only [accesses, byRule]
    split
    · rfl
    · rcases andThen_cases (answer s (.ident n name)) m fun a _ => [.read name a] with
        ⟨a, m', -, hlog⟩ | hlog
      · rw [hlog]
        rfl
      · rw [hlog]
        rfl
  constructor
  case faithful =>
    intro m hm
    simp only [accesses, byRule]
    split
    · trivial
    · rename_i hb
      rcases andThen_cases (answer s (.ident n name)) m fun a _ => [.read name a] with
        ⟨a, m', ha, hlog⟩ | hlog
      · rw [hlog]
        exact ⟨answer_ident_eq hm hb ha, trivial⟩
      · rw [hlog]
        trivial
  case values =>
    intro m a m' hm h
    rw [hstill]
    exact logged_name.values m a m' hm h
  case frame => exact logged_name.frame

/-- The name of a part is not read as a variable. -/
theorem logged_key (computed : Bool) {e : Expr}
    (he : Logged e.ids (answer s e) fun m => accesses s m e) :
    Logged e.ids (answer s e) fun m =>
      if computed ∨ e.name?.isNone then accesses s m e else [] := by
  by_cases h : computed ∨ e.name?.isNone
  · simp only [if_pos h]
    exact he
  · simp only [if_neg h]
    cases e with
    | ident n name => exact logged_name
    | _ => exact absurd (.inr rfl) h

/-! ## The induction over the tree -/

mutual

theorem logged_answer (e : Expr) (hids : e.ids.Nodup) :
    Logged e.ids (answer s e) fun m => accesses s m e := by
  match e with
  | .null n | .bool n _ | .number n _ | .string n _ | .invalid n =>
    simp only [answer, accesses]
    exact logged_once (F := []) logged_pure rfl
  | .spread _ a =>
    simp only [answer, accesses]
    exact logged_once (F := a.ids) logged_pure rfl
  | .sequence _ es =>
    simp only [answer, accesses]
    exact logged_once (F := Expr.idsAll es) logged_pure rfl
  | .property _ k v _ _ =>
    simp only [answer, accesses]
    exact logged_once (F := k.ids ++ v.ids) logged_pure rfl
  | .ident _ _ => exact logged_ident
  | .array n elements =>
    have h := logged_answerElements elements (List.nodup_append.1 hids).1
    simp only [answer, accesses]
    exact logged_once (logged_map h fun a => by cases a <;> exact ⟨_, rfl⟩) rfl
  | .object _ members =>
    have h := logged_answerMembers members (List.nodup_append.1 hids).1
    simp only [answer, accesses]
    exact logged_once (logged_map h fun a => by cases a <;> exact ⟨_, rfl⟩) rfl
  | .member _ o p computed _ =>
    obtain ⟨hop, -, -⟩ := List.nodup_append.1 hids
    obtain ⟨ho, hp, hne⟩ := List.nodup_append.1 hop
    have hobject := logged_answer o ho
    have hproperty := logged_key computed (logged_answer p hp)
    simp only [answer, accesses]
    refine logged_once (F := o.ids ++ p.ids) ?_ rfl
    -- The property is evaluated before the object.
    refine Logged.mono (F := p.ids ++ o.ids) ?_ (by simp)
    refine logged_bind (logged_passing hproperty) (fun k => ?_) fun i hi j hj => (hne j hj i hi).symm
    cases s.keyOf computed p k with
    | none => exact logged_done
    | some key => exact logged_map hobject fun a => by cases a <;> exact ⟨_, rfl⟩
  | .call _ callee xs _ =>
    simp only [answer, accesses]
    exact logged_once (F := callee.ids ++ Expr.idsAll xs) logged_call rfl
  | .assign _ op target value =>
    obtain ⟨htv, -, -⟩ := List.nodup_append.1 hids
    have hvalue := logged_answer value (List.nodup_append.1 htv).2.1
    have hrule : ∀ name, Logged (target.ids ++ value.ids)
        (do let a ← answer s value
            assign name a
            return a)
        fun m => accesses s m value ++ andThen (answer s value) m fun a _ => [.write name a] := by
      intro name
      refine Logged.mono (F := value.ids ++ []) ?_ (by simp)
      exact logged_bind hvalue (fun a => logged_assign) (by simp)
    -- Only a simple assignment to a name has a rule.
    cases op <;> cases target <;> simp only [answer, accesses] <;>
      first
        | exact logged_once logged_pure rfl
        | exact logged_once (hrule _) rfl
  | .binary n op left right =>
    obtain ⟨hlr, -, -⟩ := List.nodup_append.1 hids
    obtain ⟨hl, hr, hne⟩ := List.nodup_append.1 hlr
    have hleft := logged_answer left hl
    have hright := logged_answer right hr
    simp only [answer, accesses]
    refine logged_once (F := left.ids ++ right.ids) ?_ rfl
    cases op.function? with
    | none => exact logged_pure
    | some f =>
      refine logged_known hleft (by rfl) (fun a => ?_) hne
      exact logged_map hright fun b => by cases b <;> exact ⟨_, rfl⟩
  | .logical n op left right =>
    obtain ⟨hlr, -, -⟩ := List.nodup_append.1 hids
    obtain ⟨hl, hr, hne⟩ := List.nodup_append.1 hlr
    have hleft := logged_answer left hl
    have hright := logged_answer right hr
    simp only [answer, accesses]
    refine logged_once (F := left.ids ++ right.ids) ?_ rfl
    refine logged_known hleft (by rfl) (fun a => ?_) hne
    exact logged_map hright fun b => by cases b <;> exact ⟨_, rfl⟩
  | .unary _ op argument =>
    have h := logged_answer argument (List.nodup_append.1 hids).1
    simp only [answer, accesses]
    refine logged_once (F := argument.ids) ?_ rfl
    cases op.function? with
    | none => exact logged_pure
    | some f => exact logged_map h fun a => by cases a <;> exact ⟨_, rfl⟩
  | .conditional _ test consequent alternate =>
    obtain ⟨htca, -, -⟩ := List.nodup_append.1 hids
    rw [List.append_assoc] at htca
    obtain ⟨ht, hca, hne⟩ := List.nodup_append.1 htca
    obtain ⟨hc, ha, -⟩ := List.nodup_append.1 hca
    have htest := logged_answer test ht
    have hconsequent := logged_answer consequent hc
    have halternate := logged_answer alternate ha
    simp only [answer, accesses]
    refine logged_once (F := test.ids ++ (consequent.ids ++ alternate.ids)) ?_
      (by rw [← List.append_assoc]; rfl)
    refine logged_bind htest (fun t => ?_) hne
    cases t with
    | none => exact logged_pure
    | some t =>
      refine logged_read fun v => ?_
      cases v.isTruthy with
      | true => exact hconsequent.mono (by simp)
      | false => exact halternate.mono (by simp)

theorem logged_answerElements (elements : List (Option Expr))
    (hids : (Expr.idsElements elements).Nodup) :
    Logged (Expr.idsElements elements) (answerElements s elements)
      fun m => elementAccesses s m elements := by
  match elements with
  | [] =>
    simp only [answerElements, elementAccesses]
    exact logged_done
  | none :: rest =>
    have hrest := logged_answerElements rest hids
    simp only [answerElements, elementAccesses]
    exact logged_map hrest fun a => ⟨_, rfl⟩
  | some element :: rest =>
    obtain ⟨he, hr, hne⟩ := List.nodup_append.1 hids
    have hitem := logged_answer element he
    have hrest := logged_answerElements rest hr
    simp only [answerElements, elementAccesses]
    exact logged_bind hitem (fun _ => logged_map hrest fun a => ⟨_, rfl⟩) hne

theorem logged_answerMembers (members : List Expr) (hids : (Expr.idsAll members).Nodup) :
    Logged (Expr.idsAll members) (answerMembers s members)
      fun m => memberAccesses s m members := by
  match members with
  | [] =>
    simp only [answerMembers, memberAccesses]
    exact logged_done
  | .property n key value computed shorthand :: rest =>
    obtain ⟨hone, hr, hne⟩ := List.nodup_append.1 hids
    obtain ⟨hkv, -, -⟩ := List.nodup_append.1 hone
    obtain ⟨hk, hv, hnekv⟩ := List.nodup_append.1 hkv
    have hkey := logged_key computed (logged_answer key hk)
    have hvalue := logged_answer value hv
    have hrest := logged_answerMembers rest hr
    simp only [answerMembers, memberAccesses]
    have hsub : key.ids ++ (value.ids ++ Expr.idsAll rest) ⊆
        Expr.idsAll (.property n key value computed shorthand :: rest) := by
      intro id hid
      simp only [Expr.idsAll, Expr.ids, List.mem_append] at hid ⊢
      rcases hid with h | h | h <;> simp [h]
    refine Logged.mono ?_ hsub
    refine logged_bind hkey (fun k => ?_) ?_
    · refine logged_bind hvalue (fun v => logged_map hrest fun a => ⟨_, rfl⟩) ?_
      exact fun i hi j hj => hne i (by simp [Expr.ids, hi]) j hj
    · intro i hi j hj
      rcases List.mem_append.1 hj with hj | hj
      · exact hnekv i hi j hj
      · exact hne i (by simp [Expr.ids, hi]) j hj
  | .null _ :: _ | .bool _ _ :: _ | .number _ _ :: _ | .string _ _ :: _ | .ident _ _ :: _
  | .array _ _ :: _ | .object _ _ :: _ | .spread _ _ :: _ | .member _ _ _ _ _ :: _
  | .call _ _ _ _ :: _ | .assign _ _ _ _ :: _ | .binary _ _ _ _ :: _ | .logical _ _ _ _ :: _
  | .unary _ _ _ :: _ | .conditional _ _ _ _ :: _ | .sequence _ _ :: _ | .invalid _ :: _ =>
    simp only [answerMembers, memberAccesses]
    exact logged_pure

end

end Evaluation

/-! ## Programs -/

theorem Evaluator.faithful_accesses (v : Evaluator) (body : List Stmt)
    (hids : (Stmt.idsAll body).Nodup) (hfresh : Evaluation.Fresh (Stmt.idsAll body) v.memory) :
    Faithful v.memory.values (v.accesses body) := by
  induction body generalizing v with
  | nil => trivial
  | cons stmt rest ih =>
    obtain ⟨hone, hrest, hne⟩ := List.nodup_append.1 hids
    have hfreshRest : Evaluation.Fresh (Stmt.idsAll rest) v.memory :=
      fun id hid => hfresh id (List.mem_append_right _ hid)
    cases stmt with
    | expr span e =>
      have hlogged := Evaluation.logged_answer (s := v.setting) e hone
      have hfreshOne : Evaluation.Fresh e.ids v.memory :=
        fun id hid => hfresh id (List.mem_append_left _ hid)
      unfold accesses
      refine faithful_append.2 ⟨hlogged.faithful v.memory hfreshOne, ?_⟩
      rcases h : v.evaluate e with ⟨f | a, v'⟩
      · trivial
      · obtain ⟨hgives, -⟩ := gives_of_evaluate h
        rw [hlogged.values v.memory a _ hfreshOne hgives]
        refine ih v' hrest fun id hid => ?_
        rw [hlogged.frame v.memory a _ hgives id fun hone => hne id hone id hid rfl]
        exact hfreshRest id hid
    | _ =>
      unfold accesses
      rw [faithful_append, values_passed]
      exact ⟨faithful_passed _ _, ih v hrest hfreshRest⟩

theorem values_eq_of_not_written {L : String → Answer} {x : String} {log : List Access}
    (h : ∀ c, .write x (some c) ∉ log) : values L log x = L x := by
  induction log generalizing L with
  | nil => rfl
  | cons a rest ih =>
    have hrest : ∀ c, Access.write x (some c) ∉ rest :=
      fun c hc => h c (List.mem_cons_of_mem _ hc)
    cases a with
    | read y b => exact ih hrest
    | write y b =>
      refine (ih hrest).trans ?_
      unfold store
      rw [if_neg]
      rintro ⟨rfl, hb⟩
      obtain ⟨c, rfl⟩ := Option.isSome_iff_exists.1 hb
      exact h c List.mem_cons_self

theorem values_isSome {L : String → Answer} {x : String} (h : (L x).isSome) (log : List Access) :
    (values L log x).isSome := by
  induction log generalizing L with
  | nil => exact h
  | cons a rest ih =>
    cases a with
    | read y b => exact ih h
    | write y b =>
      refine ih ?_
      unfold store
      split
      · rename_i hy
        exact hy.2
      · exact h

theorem values_isSome_of_written {L : String → Answer} {x : String} {log : List Access} {c : Cell}
    (h : .write x (some c) ∈ log) : (values L log x).isSome := by
  obtain ⟨front, back, rfl⟩ := List.append_of_mem h
  rw [values_append]
  refine values_isSome (L := store (values L front) x (some c)) ?_ back
  simp [store]

def lastRecorded (x : String) (log : List Access) : Answer := values (fun _ => none) log x

theorem lastRecorded_eq_none_iff {x : String} {log : List Access} :
    lastRecorded x log = none ↔ ∀ c, .write x (some c) ∉ log := by
  constructor
  · intro h c hc
    have hsome := values_isSome_of_written (L := fun _ => none) hc
    rw [show values (fun _ => none) log x = none from h] at hsome
    cases hsome
  · exact values_eq_of_not_written

/-- **A read after a write that was not recorded.** It gives the value that was recorded before that
write, so it is unknown exactly if no value of the variable was recorded before. -/
theorem Program.read_after_unrecorded (source : String) (state? : Option Build.State)
    {before between after : List Access} {x : String} {a : Answer}
    (hlog : (parseProgram source).value.accesses state? =
      before ++ .write x none :: (between ++ .read x a :: after))
    (hbetween : ∀ c, .write x (some c) ∉ between) :
    a = lastRecorded x before ∧ (a = none ↔ ∀ c, .write x (some c) ∉ before) := by
  let v := Evaluator.new (.ofProgram (parseProgram source).value state?)
  have hids := (Grammar.parseProgram_numbered source).nodup
  have hfaithful : Faithful (fun _ => none) ((parseProgram source).value.accesses state?) :=
    v.faithful_accesses _ hids fun _ _ => rfl
  have hread : a = lastRecorded x before := by
    rw [hlog, faithful_append] at hfaithful
    obtain ⟨-, hfaithful⟩ := hfaithful
    unfold Faithful at hfaithful
    rw [store_none, faithful_append] at hfaithful
    calc a = values (values (fun _ => none) before) between x := hfaithful.2.1
      _ = lastRecorded x before := values_eq_of_not_written hbetween
  exact ⟨hread, by rw [hread]; exact lastRecorded_eq_none_iff⟩

/-- A log of a recorded write to `x`, another write to it and a known read of it. -/
def isKnownAfterUnrecorded (x : String) : List Access → Bool
  | [.write y (some _), .write z none, .read w (some _)] => y == x && z == x && w == x
  | _ => false

/-- In `x = 1; x += 1; x` the sum is not recorded. -/
theorem accesses_compound : ∃ c d, (parseProgram "x = 1; x += 1; x").value.accesses none =
    [.write "x" (some c)] ++ .write "x" none :: ([] ++ .read "x" (some d) :: []) := by
  have h : isKnownAfterUnrecorded "x" ((parseProgram "x = 1; x += 1; x").value.accesses none) =
      true := by
    decide +kernel
  unfold isKnownAfterUnrecorded at h
  split at h
  · rename_i x c y z d hlog
    simp only [Bool.and_eq_true, beq_iff_eq] at h
    obtain ⟨⟨rfl, rfl⟩, rfl⟩ := h
    exact ⟨c, d, hlog⟩
  · cases h

/-- The read in `x = 1; x += 1; x` is known because a value was recorded before the sum. -/
theorem read_after_compound : ∃ c d, (parseProgram "x = 1; x += 1; x").value.accesses none =
      [.write "x" (some c)] ++ .write "x" none :: ([] ++ .read "x" (some d) :: []) ∧
    some d = lastRecorded "x" [.write "x" (some c)] ∧
    (some d = none ↔ ∀ c', Access.write "x" (some c') ∉ [Access.write "x" (some c)]) := by
  obtain ⟨c, d, hlog⟩ := accesses_compound
  exact ⟨c, d, hlog, Program.read_after_unrecorded _ none hlog (by simp)⟩

/-- It is not so that a read after a write that was not recorded is unknown: `x = 1; x += 1; x` has
the value 1. -/
theorem stale_after_compound :
    (evaluateSource "x = 1; x += 1; x" none).toOption.any (·.any (· == .number 1.0)) ∧
    ¬ ∀ (before between after : List Access) (x : String) (a : Answer),
      (parseProgram "x = 1; x += 1; x").value.accesses none =
        before ++ .write x none :: (between ++ .read x a :: after) →
      (∀ c, .write x (some c) ∉ between) → a = none := by
  refine ⟨by decide +kernel, fun h => ?_⟩
  obtain ⟨c, d, hlog⟩ := accesses_compound
  cases h _ _ _ _ _ hlog (by simp)

end ScriptFold
