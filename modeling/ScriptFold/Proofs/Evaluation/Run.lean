import ScriptFold.Evaluator

/-!
Runs of evaluations.

A computation that ends without a fault gives a result and leaves another memory. For each way to
build a computation there is one lemma that says when it does so; with these lemmas a run of a
rule comes apart into the runs of its operands.
-/

namespace ScriptFold

namespace Memory

def asking (m : Memory) (e : Expr) : Memory := { m with trace := .asked e.nodeName :: m.trace }

def knowing (m : Memory) (e : Expr) (a : Answer) : Memory :=
  { m with memo := Assoc.put e.id a m.memo }

def assigned (m : Memory) (name : String) : Answer → Memory
  | some c => { m with locals := Assoc.put name c m.locals }
  | none => m

variable (m : Memory) (e : Expr) (a : Answer) (name : String)

@[simp] theorem memo_asking : (m.asking e).memo = m.memo := rfl
@[simp] theorem locals_asking : (m.asking e).locals = m.locals := rfl
@[simp] theorem memo_knowing : (m.knowing e a).memo = Assoc.put e.id a m.memo := rfl
@[simp] theorem locals_knowing : (m.knowing e a).locals = m.locals := rfl
@[simp] theorem memo_assigned : (m.assigned name a).memo = m.memo := by cases a <;> rfl

theorem lookup_memo_knowing (id : NodeId) :
    (m.knowing e a).memo.lookup id = if id = e.id then some a else m.memo.lookup id := by
  rw [memo_knowing]
  split
  · rename_i h
    rw [h, Assoc.lookup_put_self]
  · rename_i h
    rw [Assoc.lookup_put_of_ne h]

theorem lookup_locals_assigned (x : String) :
    (m.assigned name a).locals.lookup x =
      if x = name ∧ a.isSome then a else m.locals.lookup x := by
  cases a with
  | none => simp [assigned]
  | some c =>
    by_cases h : x = name
    · simp [assigned, h, Assoc.lookup_put_self]
    · simp [assigned, h, Assoc.lookup_put_of_ne h]

end Memory

namespace Evaluation

variable {α β : Type} {m m' : Memory}

/-- From the memory `m` the computation `x` gives `a` without a fault and leaves `m'`. -/
def Gives (m : Memory) (x : Evaluation α) (a : α) (m' : Memory) : Prop := x.run m = (.ok a, m')

theorem run_bind (x : Evaluation α) (f : α → Evaluation β) (m : Memory) :
    (x >>= f).run m = match x.run m with
      | (.ok a, m₁) => (f a).run m₁
      | (.error e, m₁) => (.error e, m₁) := by
  unfold ExceptT.run
  simp only [bind, ExceptT.bind, ExceptT.mk, StateT.bind, ExceptT.bindCont]
  cases x m with
  | mk result m₁ => cases result <;> rfl

@[simp] theorem gives_pure {a b : α} : Gives m (pure a) b m' ↔ a = b ∧ m = m' := by
  constructor
  · intro h
    cases h
    exact ⟨rfl, rfl⟩
  · rintro ⟨rfl, rfl⟩
    rfl

@[simp] theorem gives_throw {f : Fault} {a : α} : ¬ Gives m (throw f) a m' := by
  rintro ⟨⟩

theorem gives_bind {x : Evaluation α} {f : α → Evaluation β} {b : β} :
    Gives m (x >>= f) b m' ↔ ∃ a m₁, Gives m x a m₁ ∧ Gives m₁ (f a) b m' := by
  unfold Gives
  rw [run_bind]
  rcases h : x.run m with ⟨f | a, m₁⟩
  · constructor
    · rintro ⟨⟩
    · rintro ⟨_, _, ⟨⟩, _⟩
  · constructor
    · exact fun hf => ⟨a, m₁, rfl, hf⟩
    · rintro ⟨_, _, ⟨⟩, hf⟩
      exact hf

theorem gives_known {x : Evaluation (Option α)} {g : Option α → Evaluation (Option β)}
    {b : Option β} (hnone : g none = pure none) :
    Gives m (x >>= g) b m' ↔
      (b = none ∧ Gives m x none m') ∨
      ∃ a m₁, Gives m x (some a) m₁ ∧ Gives m₁ (g (some a)) b m' := by
  rw [gives_bind]
  constructor
  · rintro ⟨a, m₁, ha, h⟩
    cases a with
    | none =>
      rw [hnone] at h
      obtain ⟨rfl, rfl⟩ := gives_pure.1 h
      exact .inl ⟨rfl, ha⟩
    | some a => exact .inr ⟨a, m₁, ha, h⟩
  · rintro (⟨rfl, ha⟩ | ⟨a, m₁, ha, h⟩)
    · exact ⟨none, m', ha, by rw [hnone]; exact gives_pure.2 ⟨rfl, rfl⟩⟩
    · exact ⟨some a, m₁, ha, h⟩

@[simp] theorem gives_read {c : Cell} {v : Value} :
    Gives m (read c) v m' ↔ c.reading = .ok v ∧ m = m' := by
  unfold read
  cases h : c.reading with
  | ok w => simp
  | error f => simp

@[simp] theorem gives_local? {name : String} {a : Answer} :
    Gives m (local? name) a m' ↔ m.locals.lookup name = a ∧ m = m' := gives_pure

@[simp] theorem gives_assign {name : String} {a : Answer} {u : Unit} :
    Gives m (assign name a) u m' ↔ m' = m.assigned name a := by
  cases a with
  | none => exact gives_pure.trans ⟨fun h => h.2.symm, fun h => ⟨rfl, h.symm⟩⟩
  | some c =>
    constructor
    · rintro ⟨⟩
      rfl
    · rintro rfl
      rfl

@[simp] theorem gives_remembered? {id : NodeId} {a? : Option Answer} :
    Gives m (remembered? id) a? m' ↔ m.memo.lookup id = a? ∧ m = m' := gives_pure

@[simp] theorem gives_note {event : Event} {u : Unit} :
    Gives m (note event) u m' ↔ m' = { m with trace := event :: m.trace } := by
  constructor
  · rintro ⟨⟩
    rfl
  · rintro rfl
    rfl

@[simp] theorem gives_remember {e : Expr} {a : Answer} {u : Unit} :
    Gives m (remember e.id a) u m' ↔ m' = m.knowing e a := by
  constructor
  · rintro ⟨⟩
    rfl
  · rintro rfl
    rfl

def fresh (s : Setting) (e : Expr) (rule : Evaluation Answer) : Evaluation Answer :=
  match s.baseline e with
  | some reading => pure (some (s.cell e reading))
  | none => rule

theorem gives_once {s : Setting} {e : Expr} {rule : Evaluation Answer} {a : Answer} :
    Gives m (once s e rule) a m' ↔
      (m.memo.lookup e.id = some a ∧ m = m') ∨
      (m.memo.lookup e.id = none ∧
        ∃ m₁, Gives (m.asking e) (fresh s e rule) a m₁ ∧ m' = m₁.knowing e a) := by
  unfold once fresh
  simp only [gives_bind, gives_remembered?, and_assoc, exists_and_left, exists_eq_left']
  cases m.memo.lookup e.id with
  | some b => simp
  | none =>
    simp only [gives_bind, gives_note, exists_eq_left, exists_const, reduceCtorEq, false_and,
      false_or, true_and]
    cases s.baseline e with
    | some reading =>
      simp only [gives_bind, gives_remember, gives_pure, and_assoc, exists_and_left,
        exists_eq_left', exists_eq_left, exists_const, Memory.asking]
      constructor
      · rintro ⟨rfl, h⟩
        exact ⟨rfl, h.symm⟩
      · rintro ⟨rfl, h⟩
        exact ⟨rfl, h.symm⟩
    | none =>
      simp only [gives_bind, gives_remember, gives_pure, Memory.asking]
      constructor
      · rintro ⟨b, m₁, hb, _, _, rfl, rfl, rfl⟩
        exact ⟨m₁, hb, rfl⟩
      · rintro ⟨m₁, hb, rfl⟩
        exact ⟨a, m₁, hb, (), _, rfl, rfl, rfl⟩

end Evaluation

/-- What an evaluator answers is what the evaluation of the node gives. -/
theorem Evaluator.gives_of_evaluate {v v' : Evaluator} {e : Expr} {a : Answer}
    (h : v.evaluate e = (.ok a, v')) :
    Evaluation.Gives v.memory (Evaluation.answer v.setting e) a v'.memory ∧
      v'.setting = v.setting := by
  obtain ⟨hresult, rfl⟩ := Prod.mk.inj h
  exact ⟨Prod.ext hresult rfl, rfl⟩

end ScriptFold
