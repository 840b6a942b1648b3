import ScriptFold.Proofs.Evaluation.KnownResults

/-!
A known answer rests on known answers.

If the answer for a node is known, then every answer that was found on the way is known as well,
but for names of parts. The invariant speaks of the memory before and after: nothing that was
remembered changes, and where the result is known, what is new is known.
-/

namespace ScriptFold.Evaluation

variable {α β : Type} {s : Setting} {K : NodeId → Prop} {m m₁ m₂ m' : Memory} {k k₁ k₂ : Bool}

/-- What an evaluation does to the memory, where `known` says whether its result is known and the
nodes in `K` may have an unknown answer all the same. -/
structure Hereditary (K : NodeId → Prop) (m : Memory) (known : Bool) (m' : Memory) : Prop where
  kept : ∀ id a, m.memo.lookup id = some a → m'.memo.lookup id = some a
  added : known → ∀ id, m.memo.lookup id = none → m'.memo.lookup id = some none → K id

namespace Hereditary

theorem of_memo (h : m'.memo = m.memo) : Hereditary K m k m' :=
  ⟨fun id a ha => by rw [h, ha], fun _ id h₁ h₂ => by rw [h, h₁] at h₂; cases h₂⟩

theorem refl : Hereditary K m k m := of_memo rfl

theorem trans (h₁ : Hereditary K m k₁ m₁) (h₂ : Hereditary K m₁ k₂ m₂) (hk : k → k₁ ∧ k₂) :
    Hereditary K m k m₂ where
  kept id a ha := h₂.kept id a (h₁.kept id a ha)
  added hkn id hn hs := by
    obtain ⟨hk₁, hk₂⟩ := hk hkn
    cases hm : m₁.memo.lookup id with
    | none => exact h₂.added hk₂ id hm hs
    | some a =>
      have ha := h₂.kept id a hm
      rw [hs] at ha
      cases ha
      exact h₁.added hk₁ id hn hm

theorem weaken (h : Hereditary K m k m') (hk : k₁ → k) : Hereditary K m k₁ m' :=
  ⟨h.kept, fun hk₁ => h.added (hk hk₁)⟩

/-- Remembering an answer for a node that had none. -/
theorem knowing {e : Expr} {a : Answer} (h : Hereditary K m k m')
    (hn : m.memo.lookup e.id = none) (ha : k → a.isSome ∨ K e.id) :
    Hereditary K m k (m'.knowing e a) where
  kept id b hb := by
    have hne : id ≠ e.id := by
      rintro rfl
      rw [hn] at hb
      cases hb
    rw [Memory.lookup_memo_knowing, if_neg hne]
    exact h.kept id b hb
  added hk id h₁ h₂ := by
    rw [Memory.lookup_memo_knowing] at h₂
    split at h₂
    · rename_i heq
      cases h₂
      rw [heq]
      exact (ha hk).resolve_left (by simp)
    · exact h.added hk id h₁ h₂

end Hereditary

/-! ## Computations -/

/-- A computation whose known results rest on known answers. -/
def Inherits (K : NodeId → Prop) (x : Evaluation (Option α)) : Prop :=
  ∀ ⦃m a m'⦄, Gives m x a m' → Hereditary K m a.isSome m'

theorem inherits_pure {a : Option α} : Inherits K (pure a) := by
  intro m b m' h
  obtain ⟨rfl, rfl⟩ := gives_pure.1 h
  exact .refl

theorem inherits_local? {name : String} : Inherits K (local? name) := by
  intro m a m' h
  obtain ⟨rfl, rfl⟩ := gives_local?.1 h
  exact .refl

theorem inherits_known {x : Evaluation (Option α)} {g : Option α → Evaluation (Option β)}
    (hx : Inherits K x) (hnone : g none = pure none) (hsome : ∀ a, Inherits K (g (some a))) :
    Inherits K (x >>= g) := by
  intro m b m' h
  rcases (gives_known hnone).1 h with ⟨rfl, ha⟩ | ⟨a, m₁, ha, hb⟩
  · exact hx ha
  · exact (hx ha).trans (hsome a hb) (by simp)

theorem inherits_all {γ : Type} {x : Evaluation (Option α)} {y : Evaluation (Option β)}
    {f : Option α → Option β → Option γ} (hx : Inherits K x) (hy : Inherits K y)
    (hf : ∀ a b, (f a b).isSome → a.isSome ∧ b.isSome) :
    Inherits K (do let a ← x
                   let b ← y
                   return f a b) := by
  intro m c m' h
  obtain ⟨a, m₁, ha, h⟩ := gives_bind.1 h
  obtain ⟨b, m₂, hb, h⟩ := gives_bind.1 h
  obtain ⟨rfl, rfl⟩ := gives_pure.1 h
  exact (hx ha).trans (hy hb) (hf a b)

theorem inherits_read {t : Cell} {f : Value → Evaluation (Option α)} (hf : ∀ v, Inherits K (f v)) :
    Inherits K (do let v ← read t
                   f v) := by
  intro m a m' h
  obtain ⟨v, m₁, hv, h⟩ := gives_bind.1 h
  obtain ⟨-, rfl⟩ := gives_read.1 hv
  exact hf v h

theorem inherits_assign {x : Evaluation Answer} {name : String} (hx : Inherits K x) :
    Inherits K (do let a ← x
                   assign name a
                   return a) := by
  intro m a m' h
  obtain ⟨b, m₁, hb, h⟩ := gives_bind.1 h
  obtain ⟨_, m₂, hu, h⟩ := gives_bind.1 h
  obtain ⟨rfl, rfl⟩ := gives_pure.1 h
  exact (hx hb).trans (.of_memo (by rw [gives_assign.1 hu, Memory.memo_assigned])) fun hk => ⟨hk, hk⟩

theorem inherits_call {e callee : Expr} : Inherits K (call s e callee) := by
  unfold call
  split
  · exact inherits_pure
  split
  · exact inherits_pure
  split
  · exact inherits_pure
  intro m a m' h
  obtain ⟨_, m₁, hn, h⟩ := gives_bind.1 h
  have hm : m₁.memo = m.memo := by rw [gives_note.1 hn]
  split at h
  · obtain ⟨rfl, rfl⟩ := gives_pure.1 h
    exact .of_memo hm
  · exact absurd h gives_throw

theorem inherits_once {e : Expr} {rule : Evaluation Answer} (hrule : Inherits K rule) :
    Inherits K (once s e rule) := by
  intro m a m' h
  rcases gives_once.1 h with ⟨-, rfl⟩ | ⟨hn, m₁, hf, rfl⟩
  · exact .refl
  have hfresh : Hereditary K (m.asking e) a.isSome m₁ := by
    unfold fresh at hf
    split at hf
    · exact inherits_pure hf
    · exact hrule hf
  exact Hereditary.knowing ⟨hfresh.kept, hfresh.added⟩ hn .inl

/-- The name of a part may have an unknown answer: nothing else is evaluated for it. -/
theorem ident_hereditary {n : Node} {name : String} {a : Answer} (hK : K n.id)
    (h : Gives m (answer s (.ident n name)) a m') : Hereditary K m k m' := by
  simp only [answer] at h
  rcases gives_once.1 h with ⟨-, rfl⟩ | ⟨hn, m₁, hf, rfl⟩
  · exact .refl
  have hm : m₁ = m.asking (.ident n name) := by
    unfold fresh at hf
    split at hf
    · exact (gives_pure.1 hf).2.symm
    · exact (gives_local?.1 hf).2.symm
  exact Hereditary.knowing (.of_memo (by rw [hm]; rfl)) hn fun _ => .inr hK

/-- A key is known, or it is the name of a part. -/
theorem key_hereditary {e : Expr} (computed : Bool) {a : Answer}
    (hK : computed = false → e.name?.isSome → K e.id) (he : Inherits K (answer s e))
    (h : Gives m (answer s e) a m') : Hereditary K m (s.keyOf computed e a).isSome m' := by
  cases computed with
  | true => exact he h
  | false =>
    cases e with
    | ident n name => exact ident_hereditary (hK rfl rfl) h
    | _ =>
      refine (he h).weaken ?_
      cases a <;> simp [Setting.keyOf, Setting.spelled, Expr.name?]

theorem transfers_inherits {whole : Expr} (hK : ∀ k : Expr, k.NamesPartIn whole → K k.id) :
    Transfers s s.context whole fun _ x _ => Inherits K x where
  pure _ := inherits_pure
  ident _ := inherits_local?
  call _ _ := inherits_call
  unknown hx m a m' h := by
    obtain ⟨b, m₁, hb, h⟩ := gives_bind.1 h
    obtain ⟨rfl, rfl⟩ := gives_pure.1 h
    exact (hx hb).weaken (by simp)
  known hx hf _ hfg := inherits_known hx hf hfg
  both f x y x' y' hx hx' := inherits_all hx hx' fun a b => by cases a <;> cases b <;> simp
  read hf := inherits_read hf
  assign name hx := inherits_assign hx
  key computed k hname hk m a m' h := by
    obtain ⟨b, m₁, hb, h⟩ := gives_bind.1 h
    obtain ⟨rfl, rfl⟩ := gives_pure.1 h
    exact key_hereditary computed (fun hc hn => hK k (hname hc hn)) hk hb
  once e hx := inherits_once hx

theorem inherits_answer (e : Expr) (hK : ∀ k : Expr, k.NamesPartIn e → K k.id) :
    Inherits K (answer s e) :=
  (transfers_inherits hK).answer e .refl

end ScriptFold.Evaluation

namespace ScriptFold.Evaluator

/-- **A known answer rests on known answers.** If the answer for a node is known, then each answer
that was added on the way is known, but for identifiers that name a part of a node within it. -/
theorem added_known_or_part {v v' : Evaluator} {e : Expr} {c : Cell}
    (h : v.evaluate e = (.ok (some c), v')) {id : NodeId} {a : Answer}
    (hnew : v.cached? id = none) (hadded : v'.cached? id = some a) :
    a.isSome ∨ ∃ k : Expr, k.NamesPartIn e ∧ k.id = id := by
  obtain ⟨hrun, -⟩ := gives_of_evaluate h
  have hinherits := Evaluation.inherits_answer (s := v.setting) e
    (K := fun id => ∃ k : Expr, k.NamesPartIn e ∧ k.id = id) fun k hk => ⟨k, hk, rfl⟩
  cases a with
  | some b => exact .inl rfl
  | none => exact .inr ((hinherits hrun).added rfl id hnew hadded)

/-- The value of `{ a: null }` is known although nothing is known of the name `a`. -/
theorem key_added_unknown :
    let s : Setting := ⟨⟨[], []⟩, .nothing, none, 0⟩
    let e : Expr := .object ⟨0, .nowhere⟩
      [.property ⟨1, .nowhere⟩ (.ident ⟨2, .nowhere⟩ "a") (.null ⟨3, .nowhere⟩) false false]
    let v' := ((new s).evaluate e).2
    (∃ c, (new s).evaluate e = (.ok (some c), v')) ∧
      (new s).cached? 2 = none ∧ v'.cached? 2 = some none ∧
      ((none : Answer).isSome ∨ ∃ k : Expr, k.NamesPartIn e ∧ k.id = 2) := by
  intro s e v'
  have hknown : (new s).evaluate e = (.ok (some ⟨.node 0 0, _⟩), v') := rfl
  exact ⟨⟨_, hknown⟩, rfl, rfl, added_known_or_part hknown rfl rfl⟩

end ScriptFold.Evaluator
