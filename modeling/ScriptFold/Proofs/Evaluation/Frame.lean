import ScriptFold.Proofs.Evaluation.Visits

/-!
What an evaluation leaves as it is.

The evaluation of a node keeps all answers that are remembered, adds answers for nodes within the
node only, and writes only variables that are assigned within it. It adds an answer for the node
itself exactly if it does not end in a fault. The baseline is asked about a node, and a call is
answered, at most once and only where nothing is remembered for the node.
-/

namespace ScriptFold

namespace Expr

/-- The identity is that of a node within `e`. -/
def HasId (e : Expr) (id : NodeId) : Prop := ∃ d : Expr, d.Within e ∧ d.id = id

def Assigns (e : Expr) (x : String) : Prop := ∃ d : Expr, d.Within e ∧ d.assigned? = some x

variable {d e : Expr} {id : NodeId} {x : String}

theorem HasId.of_within (h : d.HasId id) (hd : d.Within e) : e.HasId id := by
  obtain ⟨c, hc, hid⟩ := h
  exact ⟨c, hc.trans hd, hid⟩

theorem Assigns.of_within (h : d.Assigns x) (hd : d.Within e) : e.Assigns x := by
  obtain ⟨c, hc, hx⟩ := h
  exact ⟨c, hc.trans hd, hx⟩

end Expr

def Memory.Grows (m n : Memory) : Prop :=
  ∀ id a, m.memo.lookup id = some a → n.memo.lookup id = some a

namespace Memory.Grows

variable {m m₁ m₂ : Memory}

theorem refl (m : Memory) : m.Grows m := fun _ _ h => h

theorem trans (h : m.Grows m₁) (h' : m₁.Grows m₂) : m.Grows m₂ := fun id a ha => h' id a (h id a ha)

theorem unknown (h : m.Grows m₁) {id : NodeId} (hid : m₁.memo.lookup id = none) :
    m.memo.lookup id = none := by
  cases hm : m.memo.lookup id with
  | none => rfl
  | some a =>
    rw [h id a hm] at hid
    cases hid

theorem assigned (x : String) (a : Answer) : m.Grows (m.assigned x a) := by
  intro id b h
  rw [memo_assigned, h]

theorem knowing {e : Expr} (hm : m.memo.lookup e.id = none) (a : Answer) :
    m.Grows (m.knowing e a) := by
  intro id b hb
  rw [lookup_memo_knowing, if_neg, hb]
  rintro rfl
  rw [hm] at hb
  cases hb

end Memory.Grows

namespace Evaluation

variable {s : Setting} {p : Program} {m m' m₁ m₂ : Memory} {e : Expr}

/-! ## Answers -/

section

variable {id : NodeId}

/-- An evaluation changes nothing for a node that is not within the evaluated one. -/
theorem lookup_memo_answer (h : ¬ e.HasId id) (m : Memory) :
    ((answer s e).run m).2.memo.lookup id = m.memo.lookup id := by
  induction e using Expr.below_induction generalizing m with
  | h e ih =>
    refine answer_steps (R := fun m m' => m'.memo.lookup id = m.memo.lookup id) (fun _ => rfl)
      (fun _ _ _ h h' => h'.trans h) (fun _ => ?_) fun _ a m₁ _ hm₁ => ?_
    · exact {
        note := fun _ _ => rfl
        operand := fun _ m₁ d hd => ih d hd.below (fun h' => h (h'.of_within hd.below.within)) m₁
        assigned := fun name _ a m₁ => by rw [Memory.memo_assigned] }
    · rw [Memory.lookup_memo_knowing, if_neg, hm₁]
      rintro rfl
      exact h ⟨e, .refl, rfl⟩

/-- Until the answer for a node is remembered, nothing changes but for the nodes below it. -/
theorem lookup_memo_fresh (h : ∀ d : Expr, d.Below e → d.id ≠ id) (m : Memory) :
    ((fresh s e (ruleBy (answer s) s e)).run (m.asking e)).2.memo.lookup id =
      m.memo.lookup id := by
  refine Steps.fresh (R := fun m m' => m'.memo.lookup id = m.memo.lookup id) (fun _ => rfl)
    (fun _ _ _ h h' => h'.trans h) ?_
  exact {
    note := fun _ _ => rfl
    operand := fun _ m₁ d hd =>
      lookup_memo_answer (fun ⟨c, hc, hid⟩ => h c (hd.below.of_within hc) hid) m₁
    assigned := fun name _ a m₁ => by rw [Memory.memo_assigned] }

end

theorem lookup_memo_fresh_self (hp : p.Distinct) (he : e ∈ p.nodes)
    (hm : m.memo.lookup e.id = none) :
    ((fresh s e (ruleBy (answer s) s e)).run (m.asking e)).2.memo.lookup e.id = none :=
  (lookup_memo_fresh (fun _ hd => hp.id_ne_of_below he hd) m).trans hm

theorem lookup_memo_self (hp : p.Distinct) (he : e ∈ p.nodes) (m : Memory) :
    ((answer s e).run m).2.memo.lookup e.id = ((answer s e).run m).1.toOption := by
  cases hm : m.memo.lookup e.id with
  | some a =>
    rw [run_answer_of_known hm]
    exact hm
  | none =>
    have hself := lookup_memo_fresh_self (s := s) hp he hm
    rw [run_answer_of_new hm]
    rcases hrun : (fresh s e (ruleBy (answer s) s e)).run (m.asking e) with ⟨f | a, m₁⟩
    · rw [hrun] at hself
      exact hself
    · exact (m₁.lookup_memo_knowing e a e.id).trans (if_pos rfl)

/-! ## Frames -/

/-- From `m` to `m'` all answers are kept, new ones are added for nodes with an identity in `K`
only, and variables are changed in `W` only. -/
structure Frame (K : NodeId → Prop) (W : String → Prop) (m m' : Memory) : Prop where
  kept : m.Grows m'
  added : ∀ id, m.memo.lookup id = none → ¬ K id → m'.memo.lookup id = none
  locals : ∀ x, ¬ W x → m'.locals.lookup x = m.locals.lookup x

namespace Frame

variable {K K' : NodeId → Prop} {W W' : String → Prop}

theorem of_eq (hmemo : m'.memo = m.memo) (hlocals : m'.locals = m.locals) : Frame K W m m' where
  kept id a h := by rw [hmemo, h]
  added id h _ := by rw [hmemo, h]
  locals x _ := by rw [hlocals]

theorem refl (m : Memory) : Frame K W m m := of_eq rfl rfl

theorem trans (h : Frame K W m m₁) (h' : Frame K W m₁ m₂) : Frame K W m m₂ where
  kept := h.kept.trans h'.kept
  added id hid hK := h'.added id (h.added id hid hK) hK
  locals x hx := (h'.locals x hx).trans (h.locals x hx)

theorem mono (h : Frame K W m m') (hK : ∀ id, K id → K' id) (hW : ∀ x, W x → W' x) :
    Frame K' W' m m' where
  kept := h.kept
  added id hid hK' := h.added id hid fun hKid => hK' (hK id hKid)
  locals x hW' := h.locals x fun hWx => hW' (hW x hWx)

theorem assigned {x : String} (hx : W x) (a : Answer) : Frame K W m (m.assigned x a) where
  kept := .assigned x a
  added id h _ := by rw [Memory.memo_assigned, h]
  locals y hy := by
    rw [Memory.lookup_locals_assigned, if_neg]
    rintro ⟨rfl, -⟩
    exact hy hx

theorem knowing (hm : m.memo.lookup e.id = none) (hK : K e.id) (a : Answer) :
    Frame K W m (m.knowing e a) where
  kept := .knowing hm a
  added id hid hnK := by
    rw [Memory.lookup_memo_knowing, if_neg, hid]
    rintro rfl
    exact hnK hK
  locals x _ := rfl

end Frame

theorem frame_answer (hp : p.Distinct) (e : Expr) (he : e ∈ p.nodes) (m : Memory) :
    Frame e.HasId e.Assigns m ((answer s e).run m).2 := by
  induction e using Expr.below_induction generalizing m with
  | h e ih =>
    refine answer_steps Frame.refl (fun _ _ _ => Frame.trans) (fun _ => ?_)
      fun hm a m₁ hrun hframe => ?_
    · exact {
        note := fun _ _ => .of_eq rfl rfl
        operand := fun _ m₁ d hd => (ih d hd.below (hd.mem_nodes he) m₁).mono
          (fun _ h => h.of_within hd.below.within) fun _ h => h.of_within hd.below.within
        assigned := fun name hname a m₁ => .assigned ⟨e, .refl, hname⟩ a }
    · have hself := lookup_memo_fresh_self (s := s) hp he hm
      rw [hrun] at hself
      exact hframe.trans (.knowing hself ⟨e, .refl, rfl⟩ a)

end Evaluation

end ScriptFold
