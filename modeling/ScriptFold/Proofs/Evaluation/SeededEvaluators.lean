import ScriptFold.Proofs.Evaluation.UniqueKeys
import ScriptFold.Proofs.Value.Entries

/-!
What seeded evaluators come to know.

An evaluator may start with values of variables and with answers for nodes, it may be asked again
and again, also after a fault, and others may go on from what it has learnt. If keys are unique in
all that it is given, they are unique in all that it learns.
-/

namespace ScriptFold

/-! ## Ways to an evaluator -/

/-- The evaluators of a program with the given index that can be had from new ones. What they are
given has unique keys: what a baseline knows, values of variables, and answers for nodes. -/
inductive Evaluator.Seeded (index : Index) : Evaluator → Prop
  | new {s : Setting} (hindex : s.index = index) (hs : s.Keyed) : Seeded index (.new s)
  /-- Goes on with another baseline or build. -/
  | configured {v : Evaluator} {s : Setting} (h : Seeded index v) (hindex : s.index = index)
    (hs : s.Keyed) : Seeded index { v with setting := s }
  | withLocal {v : Evaluator} (h : Seeded index v) (name : String) {c : Cell}
    (hc : c.reading.Keyed) : Seeded index (v.withLocal name c)
  /-- Goes on with other values of variables only. -/
  | withLocals {v : Evaluator} (h : Seeded index v) {locals : List (String × Cell)}
    (hlocals : ∀ x, Answer.Keyed (locals.lookup x)) :
    Seeded index { v with memory := { v.memory with locals := locals } }
  | withKnown {v : Evaluator} (h : Seeded index v) (id : NodeId) {a : Answer} (ha : a.Keyed) :
    Seeded index (v.withKnown id a)
  | child {v : Evaluator} (h : Seeded index v) (owner : Nat) : Seeded index (v.child owner)
  /-- Has evaluated a node, perhaps up to a fault. -/
  | evaluated {v : Evaluator} (h : Seeded index v) (e : Expr) : Seeded index (v.evaluate e).2

/-! ## What is kept -/

/-- Keys are unique in all that an evaluator knows and remembers. -/
structure Evaluator.Keyed (v : Evaluator) : Prop where
  setting : v.setting.Keyed
  memory : v.memory.Keyed

namespace Evaluator.Keyed

variable {v : Evaluator}

theorem withLocal (h : v.Keyed) (name : String) {c : Cell} (hc : c.reading.Keyed) :
    (v.withLocal name c).Keyed where
  setting := h.setting
  memory := by
    have hseed : Answer.Keyed (some c) := Answer.holds_some hc
    have hassigned := Memory.Holds.assigned ⟨h.memory.memo, h.memory.locals⟩ name hseed
    exact ⟨hassigned.memo, hassigned.locals⟩

theorem withKnown (h : v.Keyed) (id : NodeId) {a : Answer} (ha : a.Keyed) :
    (v.withKnown id a).Keyed where
  setting := h.setting
  memory :=
    { memo := fun id' b hb => by
        by_cases hid : id' = id
        · rw [hid] at hb
          have hput := Assoc.lookup_put_self id a v.memory.memo
          rw [Evaluator.withKnown, hput] at hb
          cases hb
          exact ha
        · have hput := Assoc.lookup_put_of_ne hid a v.memory.memo
          rw [Evaluator.withKnown, hput] at hb
          exact h.memory.memo id' b hb
      locals := h.memory.locals }

theorem evaluate (h : v.Keyed) (e : Expr) :
    (v.evaluate e).2.Keyed ∧ ∀ a, (v.evaluate e).1 = .ok a → a.Keyed := by
  have hend := Evaluation.respects_answer (Evaluation.keeps_reading h.setting) e v.memory
    ⟨h.memory.memo, h.memory.locals⟩
  exact ⟨⟨h.setting, hend.memory.memo, hend.memory.locals⟩, hend.result⟩

end Evaluator.Keyed

theorem Evaluator.Seeded.keyed {index : Index} {v : Evaluator} (h : v.Seeded index) : v.Keyed := by
  induction h with
  | new _ hs => exact ⟨hs, Memory.keyed_empty⟩
  | configured _ _ hs ih => exact ⟨hs, ih.memory⟩
  | withLocal _ name hc ih => exact ih.withLocal name hc
  | withLocals _ hlocals ih => exact ⟨ih.setting, ih.memory.memo, hlocals⟩
  | withKnown _ id ha ih => exact ih.withKnown id ha
  | child _ owner ih => exact ⟨ih.setting, ih.memory.memo, ih.memory.locals⟩
  | evaluated _ e ih => exact (ih.evaluate e).1

/-! ## Moments of an evaluation -/

namespace Evaluation

variable {s : Setting} {m m₁ : Memory} {d e : Expr}

theorem ElementOperand.keyed (hs : s.Keyed) {elements : List (Option Expr)}
    (h : ElementOperand s m elements m₁ d) (hm : m.Keyed) : m₁.Keyed := by
  induction h with
  | here => exact hm
  | hole _ ih => exact ih hm
  | later ha _ ih => exact ih (keeps_answer hs _ ha hm).1

theorem MemberOperand.keyed (hs : s.Keyed) {members : List Expr}
    (h : MemberOperand s m members m₁ d) (hm : m.Keyed) : m₁.Keyed := by
  induction h with
  | key => exact hm
  | value hk => exact (keeps_answer hs _ hk hm).1
  | later hk hv _ ih => exact ih (keeps_answer hs _ hv (keeps_answer hs _ hk hm).1).1

theorem Operand.keyed (hs : s.Keyed) (h : Operand s m e m₁ d) (hm : m.Keyed) : m₁.Keyed := by
  cases h with
  | element h => exact h.keyed hs hm
  | member h => exact h.keyed hs hm
  | property | assigned | left | first | argument | test => exact hm
  | object hgives | right _ hgives | second hgives | consequent hgives | alternate hgives =>
    exact (keeps_answer hs _ hgives hm).1

theorem Visits.keyed (hs : s.Keyed) (h : Visits s m e m₁ d) (hm : m.Keyed) : m₁.Keyed := by
  induction h with
  | refl => exact hm
  | step _ _ hoperand _ ih => exact ih (hoperand.keyed hs ⟨hm.memo, hm.locals⟩)

end Evaluation

/-! ## Objects -/

/-- **An object holds each key once, with the value that came last.** The entries of an object are
those that it is made from, merged: one for each key, in the order in which the keys first came, and
a key reads as the last value that was given for it.

Take any evaluators of a source text, with any build, that are started anew or from one another,
seeded, and asked for nodes again and again. If keys are unique in all the seeds, then they are
unique, at every depth, in the answers that are remembered, in the values of variables and in what
any evaluation answers; and also in what is remembered and answered at the nodes on the way, even if
the evaluation ends in a fault. -/
theorem keys_unique_of_seeded :
    (∀ i entries kept, Value.ofEntries i entries = .object i kept ↔ Assoc.Merges entries kept) ∧
    (∀ i front key v back, key ∉ back.map Prod.fst →
      (Value.ofEntries i (front ++ (key, v) :: back)).get key = .ok v) ∧
    ∀ source,
      let index := Index.ofProgram (parseProgram source).value
      (∀ state?, (Evaluator.new (.ofProgram (parseProgram source).value state?)).Seeded index) ∧
      ∀ v : Evaluator, v.Seeded index →
        (∀ id a, v.cached? id = some a → a.Keyed) ∧
        (∀ x, Answer.Keyed (v.memory.locals.lookup x)) ∧
        (∀ e a, (v.evaluate e).1 = .ok a → a.Keyed) ∧
        ∀ e m d, Evaluation.Visits v.setting v.memory e m d →
          m.Keyed ∧ ∀ a m', Evaluation.Gives m (Evaluation.answer v.setting d) a m' → a.Keyed := by
  refine ⟨fun i entries kept => ?_, fun i front key v back hkey => ?_, fun source =>
    ⟨fun state? => .new rfl (Setting.keyed_ofProgram _ state?), fun v h => ?_⟩⟩
  · rw [Assoc.merges_iff, Value.ofEntries, Value.object.injEq, eq_self, true_and, eq_comm]
  · exact Value.get_object i ((Assoc.merges_ofList _).lookup_of_last hkey)
  · have hv := h.keyed
    refine ⟨hv.memory.memo, hv.memory.locals, fun e => (hv.evaluate e).2, fun e m d hvisit => ?_⟩
    have hm := hvisit.keyed hv.setting hv.memory
    exact ⟨hm, fun a m' ha => (Evaluation.keeps_answer hv.setting d ha hm).2⟩

/-- Of an object with a repeated key, and of an evaluator of the text `x` that knows an object. -/
theorem keys_unique_of_seeded_object :
    (Value.ofEntries ⟨.given 0, []⟩ [("a", .null), ("b", .null), ("a", .undefined)]).get "a" =
      .ok .undefined ∧
    ∃ c, (((Evaluator.new (.ofProgram (parseProgram "x").value none)).withKnown 0
        (some ⟨.given 0, .ok (.object ⟨.given 0, []⟩ [("a", .null)])⟩)).evaluate
          (.ident ⟨0, .nowhere⟩ "x")).1 = .ok (some c) ∧ c.reading.Keyed := by
  obtain ⟨-, hlast, hsource⟩ := keys_unique_of_seeded
  obtain ⟨hnew, hall⟩ := hsource "x"
  refine ⟨hlast _ [("a", .null), ("b", .null)] "a" .undefined [] (by decide), _, rfl, ?_⟩
  have hseed : Reading.Keyed (.ok (.object ⟨.given 0, []⟩ [("a", .null)])) :=
    Reading.keyed_ok (.object _ (by decide) (List.forall_mem_singleton.2 .null))
  have hseeded := (hnew none).withKnown 0 (Answer.holds_some (c := ⟨.given 0, _⟩) hseed)
  exact (hall _ hseeded).2.2.1 (.ident ⟨0, .nowhere⟩ "x") _ rfl _ rfl

end ScriptFold
