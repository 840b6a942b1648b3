import ScriptFold.Fold
import ScriptFold.Proofs.Evaluation.Locality
import ScriptFold.Proofs.Evaluation.Order
import ScriptFold.Proofs.Evaluation.Remembered

/-!
Logical operators and the faults of their right operands.

A logical operator takes its left operand where that one decides, but it reads both operands. So it
has the value that short-circuit evaluation gives unless the left operand decides and the right one
cannot be read; then it has the fault of the right one.
-/

namespace ScriptFold

/-- Short-circuit evaluation: where the left operand decides, the right one is not read. -/
def Reading.shortCircuit (op : LogicalOp) (a b : Reading) : Reading := do
  let x ← a
  if op.decides x then return x else b

namespace Reading

variable {op : LogicalOp} {a b : Reading} {x : Value} {f : Fault}

theorem shortCircuit_of_decides (ha : a = .ok x) (hx : op.decides x = true) :
    shortCircuit op a b = .ok x := by
  subst ha
  exact if_pos hx

theorem shortCircuit_of_not_decides (ha : a = .ok x) (hx : op.decides x = false) :
    shortCircuit op a b = b := by
  subst ha
  exact if_neg (by simp [hx])

theorem binary_of_fault {g : Value → Value → Value} (ha : a = .ok x) (hb : b = .error f) :
    binary g a b = .error f := by
  subst ha hb
  rfl

/-- Reading both operands is short-circuit evaluation but where the left one decides and the right
one has a fault. -/
theorem binary_eq_shortCircuit_iff :
    binary op.function a b = shortCircuit op a b ↔
      ¬ ∃ x f, a = .ok x ∧ op.decides x = true ∧ b = .error f := by
  cases a with
  | error f => exact iff_of_true rfl (by simp)
  | ok x =>
    cases hx : op.decides x with
    | false =>
      rw [shortCircuit_of_not_decides rfl hx]
      refine iff_of_true ?_ (by simp [hx])
      cases b with
      | error f => rfl
      | ok y => exact congrArg Except.ok (if_neg (by simp [hx]))
    | true =>
      rw [shortCircuit_of_decides rfl hx]
      cases b with
      | error f => exact iff_of_false (by rw [binary_of_fault rfl rfl]; simp) (by simp [hx])
      | ok y => exact iff_of_true (congrArg Except.ok (if_pos hx)) (by simp)

end Reading

/-! ## What is remembered for logical operators -/

namespace Evaluation

variable {s : Setting} {p : Program} {m m₁ : Memory} {n : Node} {op : LogicalOp} {left right : Expr}

theorem gives_logical {a : Answer} (h : Gives m (ruleBy (answer s) s (.logical n op left right)) a m₁) :
    (a = none ∧ Gives m (answer s left) none m₁) ∨
    ∃ c b m₂, Gives m (answer s left) (some c) m₂ ∧ Gives m₂ (answer s right) b m₁ ∧
      a.map Cell.reading = b.map fun d => .binary op.function c.reading d.reading := by
  obtain ⟨c?, m₂, hleft, h⟩ := gives_bind.1 h
  cases c? with
  | none =>
    obtain ⟨rfl, rfl⟩ := gives_pure.1 h
    exact .inl ⟨rfl, hleft⟩
  | some c =>
    obtain ⟨b, m₃, hright, h⟩ := gives_bind.1 h
    cases b with
    | none =>
      obtain ⟨rfl, rfl⟩ := gives_pure.1 h
      exact .inr ⟨c, none, m₂, hleft, hright, rfl⟩
    | some d =>
      obtain ⟨rfl, rfl⟩ := gives_pure.1 h
      exact .inr ⟨c, some d, m₂, hleft, hright, rfl⟩

/-- An answer for a logical operator follows from the answers that are remembered for its
operands. -/
def FromOperands (op : LogicalOp) (left right : Expr) (a : Answer) (m : Memory) : Prop :=
  (a = none ∧ m.memo.lookup left.id = some none) ∨
  ∃ c b, m.memo.lookup left.id = some (some c) ∧ m.memo.lookup right.id = some b ∧
    a.map Cell.reading = b.map fun d => .binary op.function c.reading d.reading

/-- An answer that is remembered for a logical operator does so. -/
def LogicalFromOperands (n : Node) (op : LogicalOp) (left right : Expr) : Memory → Prop :=
  Remembers (FromOperands op left right) (.logical n op left right)

theorem FromOperands.of_extends {a : Answer} (hm : m.Extends m₁)
    (h : FromOperands op left right a m) : FromOperands op left right a m₁ := by
  rcases h with ⟨rfl, hleft⟩ | ⟨c, b, hleft, hright, hvalue⟩
  · exact .inl ⟨rfl, hm.grows _ _ hleft⟩
  · exact .inr ⟨c, b, hm.grows _ _ hleft, hm.grows _ _ hright, hvalue⟩

theorem establishes_fromOperands (hp : p.Distinct) (he : .logical n op left right ∈ p.nodes)
    (hbaseline : s.baseline (.logical n op left right) = none) :
    Establishes s (.logical n op left right) (FromOperands op left right) := by
  refine ⟨hbaseline, fun {m a m₁} hrule => ?_⟩
  rcases gives_logical hrule with ⟨rfl, hleft⟩ | ⟨c, b, m₂, hleft, hright, hvalue⟩
  · exact .inl ⟨rfl, hleft.remembered⟩
  · have hkept := extends_answer (s := s) hp
      (p.mem_nodes_of_within he (d := right) (.child (by simp [Expr.children]))) m₂
    rw [hright] at hkept
    exact .inr ⟨c, b, hkept.grows _ _ hleft.remembered, hright.remembered, hvalue⟩

theorem logicalFromOperands_afterAll (hp : p.Distinct) (he : .logical n op left right ∈ p.nodes)
    {requests : List Request} (hnodes : ∀ r ∈ requests, r.node ∈ p.nodes)
    (hbaseline : ∀ r ∈ requests, r.setting.baseline (.logical n op left right) = none)
    (h : LogicalFromOperands n op left right m) :
    LogicalFromOperands n op left right (m.afterAll requests) :=
  remembers_afterAll .of_extends hp he hnodes
    (fun r hr => establishes_fromOperands hp he (hbaseline r hr)) h

end Evaluation

namespace Evaluator

open Evaluation

variable {v : Evaluator} {p : Program} {n : Node} {op : LogicalOp} {left right : Expr} {a b : Cell}

/-- Where both operands are known, so is the whole. It reads both of them. -/
theorem evaluate_logical (hnew : v.cached? n.id = none)
    (hbaseline : v.setting.baseline (.logical n op left right) = none)
    (ha : (v.evaluate left).1 = .ok (some a))
    (hb : ((v.evaluate left).2.evaluate right).1 = .ok (some b)) :
    (v.evaluate (.logical n op left right)).1 = .ok (some
      (v.setting.cell (.logical n op left right) (.binary op.function a.reading b.reading))) := by
  -- The baseline is asked about the whole before the operands, which does not show in them.
  obtain ⟨m₁, m₂, hleft, hright⟩ := gives_after_asking ha hb (.logical n op left right)
  exact evaluate_of_rule hnew hbaseline
    (gives_bind.2 ⟨some a, m₁, hleft, gives_bind.2 ⟨some b, m₂, hright, gives_pure.2 ⟨rfl, rfl⟩⟩⟩)

/-- The same where something is remembered for the whole. -/
theorem evaluate_logical_of_fromOperands
    (hmemo : LogicalFromOperands n op left right v.memory)
    (hbaseline : v.setting.baseline (.logical n op left right) = none)
    (ha : (v.evaluate left).1 = .ok (some a))
    (hb : ((v.evaluate left).2.evaluate right).1 = .ok (some b)) :
    ∃ c, (v.evaluate (.logical n op left right)).1 = .ok (some c) ∧
      c.reading = .binary op.function a.reading b.reading := by
  cases hknown : v.memory.memo.lookup n.id with
  | none => exact ⟨_, evaluate_logical hknown hbaseline ha hb, rfl⟩
  | some x =>
    have hwhole := evaluate_of_known (e := .logical n op left right) hknown
    rcases hmemo x hknown with ⟨-, hleft⟩ | ⟨c, d, hleft, hright, hvalue⟩
    · rw [evaluate_of_known hleft] at ha
      cases ha
    · rw [evaluate_of_known hleft] at ha hb
      rw [evaluate_of_known hright] at hb
      cases ha
      cases hb
      obtain ⟨c', rfl, hreading⟩ := Option.map_eq_some_iff.1 hvalue
      exact ⟨c', congrArg Prod.fst hwhole, hreading⟩

/-- **Logical operators and short-circuit evaluation.** An evaluator starts with nothing remembered
for a logical operator and is asked for nodes of the program, again and again. Whenever both operands
are then known, so is the whole, and reading it gives what short-circuit evaluation gives, unless the
left operand decides and the right one has a fault. In that case, and only then, it gives something
else, namely that fault. -/
theorem logical_reading (hp : p.Distinct) (he : .logical n op left right ∈ p.nodes) {m : Memory}
    (hm : m.memo.lookup n.id = none) {requests : List Request}
    (hnodes : ∀ r ∈ requests, r.node ∈ p.nodes)
    (hrequests : ∀ r ∈ requests, r.setting.baseline (.logical n op left right) = none)
    {s : Setting} (hbaseline : s.baseline (.logical n op left right) = none) :
    let v : Evaluator := ⟨s, m.afterAll requests⟩
    (v.evaluate left).1 = .ok (some a) → ((v.evaluate left).2.evaluate right).1 = .ok (some b) →
      ∃ c, (v.evaluate (.logical n op left right)).1 = .ok (some c) ∧
        (c.reading = .shortCircuit op a.reading b.reading ↔
          ¬ ∃ x f, a.reading = .ok x ∧ op.decides x = true ∧ b.reading = .error f) ∧
        ∀ x f, a.reading = .ok x → op.decides x = true → b.reading = .error f →
          c.reading = .error f := by
  intro v ha hb
  have hmemo : LogicalFromOperands n op left right v.memory :=
    logicalFromOperands_afterAll hp he hnodes hrequests fun x hx => by cases hm.symm.trans hx
  obtain ⟨c, hc, hreading⟩ := evaluate_logical_of_fromOperands hmemo hbaseline ha hb
  refine ⟨c, hc, ?_, fun x f hx _ hf => hreading.trans (Reading.binary_of_fault hx hf)⟩
  rw [hreading]
  exact Reading.binary_eq_shortCircuit_iff

def nullAndMember : Expr :=
  .logical ⟨4, .nowhere⟩ .and (.null ⟨0, .nowhere⟩)
    (.member ⟨3, .nowhere⟩ (.null ⟨1, .nowhere⟩) (.ident ⟨2, .nowhere⟩ "a") false false)

/-- In `null && null.a` the left operand decides, and the right one cannot be read. So it is when the
node is evaluated for the first time and again. -/
theorem logical_reading_of_null :
    let s : Setting := ⟨⟨[], []⟩, .nothing, none, 0⟩
    let f : Fault := .read (.nullish "a" "null")
    Reading.shortCircuit .and (.ok .null) (.error f) = .ok .null ∧
      ∀ requests ∈ [[], [⟨s, nullAndMember⟩]], ∃ c,
        ((⟨s, Memory.empty.afterAll requests⟩ : Evaluator).evaluate nullAndMember).1 = .ok (some c) ∧
        c.reading = .error f := by
  intro s f
  have hp : (Program.ofExpr nullAndMember).Distinct := by decide
  have he := Program.mem_nodes_ofExpr.2 (.refl (a := nullAndMember))
  refine ⟨rfl, fun requests hrequests => ?_⟩
  rcases List.mem_pair.1 hrequests with rfl | rfl
  · obtain ⟨c, hc, -, hfault⟩ := logical_reading hp he (m := .empty) rfl (List.forall_mem_nil _)
      (List.forall_mem_nil _) (s := s) rfl rfl rfl
    exact ⟨c, hc, hfault .null f rfl rfl rfl⟩
  · have hnodes : ∀ r ∈ [(⟨s, nullAndMember⟩ : Request)],
        r.node ∈ (Program.ofExpr nullAndMember).nodes := by
      intro r hr
      rw [List.mem_singleton.1 hr]
      exact he
    obtain ⟨c, hc, -, hfault⟩ := logical_reading hp he (m := .empty) rfl hnodes (fun _ hr => by
      rw [List.mem_singleton.1 hr]; rfl) (s := s) rfl rfl rfl
    exact ⟨c, hc, hfault .null f rfl rfl rfl⟩

/-- It is not so that the whole gives the left operand wherever that one decides: `null && null.a`
ends in a fault. -/
theorem fault_of_decided :
    (evaluateSource "null && null.a" none).map Option.isSome =
      .error (.fault (.read (.nullish "a" "null"))) ∧
    ¬ ∀ (v : Evaluator) (n : Node) (op : LogicalOp) (left right : Expr) (a b c : Cell) (x : Value),
      v.cached? n.id = none → v.setting.baseline (.logical n op left right) = none →
      (v.evaluate left).1 = .ok (some a) → ((v.evaluate left).2.evaluate right).1 = .ok (some b) →
      (v.evaluate (.logical n op left right)).1 = .ok (some c) →
      a.reading = .ok x → op.decides x = true → c.reading = .ok x := by
  refine ⟨by decide +kernel, fun h => ?_⟩
  have hleft := h (new ⟨⟨[], []⟩, .nothing, none, 0⟩) ⟨4, .nowhere⟩ .and (.null ⟨0, .nowhere⟩)
    (.member ⟨3, .nowhere⟩ (.null ⟨1, .nowhere⟩) (.ident ⟨2, .nowhere⟩ "a") false false)
    _ _ _ .null rfl rfl rfl rfl rfl rfl rfl
  cases hleft

end Evaluator

end ScriptFold
