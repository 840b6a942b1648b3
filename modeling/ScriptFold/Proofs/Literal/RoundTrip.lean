import ScriptFold.Fold
import ScriptFold.Proofs.Literal.Printer
import ScriptFold.Proofs.Literal.Recovery

/-!
Folding a source text.

Folding gives a literal where evaluation gives a value, unless a number in it is not finite, and
the literal evaluates to that value.
-/

namespace ScriptFold

variable {print : Json.Printer}

/-- The literal of a value that is not undefined. -/
theorem Literal.ofValue_eq {v : Value} (hne : v ≠ .undefined) (firstId : NodeId) :
    Literal.ofValue print v firstId = (do Literal.ofJson print (← v.toJson) firstId) := by
  cases v with
  | undefined => exact absurd rfl hne
  | _ => rfl

theorem Literal.ofReading_ok (v : Value) :
    Literal.ofReading print (.ok v) = (Literal.ofValue print v 0).map Prod.fst := by
  show (do return (← Literal.ofValue print v 0).1) = _
  cases Literal.ofValue print v 0 <;> rfl

theorem Program.evaluate_ofExpr {e : Expr} {c : Cell} {m' : Memory} {state? : Option Build.State}
    (h : Evaluation.Gives .empty (Evaluation.answer (.ofProgram (.ofExpr e) state?) e) (some c) m') :
    (Program.ofExpr e).evaluate state? = .ok (some c) := by
  have hrun : (Evaluator.new (.ofProgram (.ofExpr e) state?)).evaluate e =
      (.ok (some c), ⟨.ofProgram (.ofExpr e) state?, m'⟩) := by
    rw [Evaluator.evaluate]
    exact congrArg (fun p => (p.1, (⟨.ofProgram (.ofExpr e) state?, p.2⟩ : Evaluator))) h
  have hexpressions : (Program.ofExpr e).expressions = [e] := rfl
  rw [Program.evaluate, hexpressions, Evaluator.evaluateAll, hrun]
  rfl

theorem Baseline.constant_undefined :
    (Setting.ofProgram (.ofExpr (.ident ⟨0, .nowhere⟩ "undefined")) none).baseline
      (.ident ⟨0, .nowhere⟩ "undefined") = some (.ok .undefined) := by
  have hprogram (p : Program) : (Setting.ofProgram p none).baseline = .constant (.ofProgram p) := rfl
  rw [hprogram, constant, constantFrom, if_pos (by rfl)]
  rfl

/-- The literal of a value evaluates to the value. -/
theorem Literal.ofValue_recovers (hprint : Json.Compact print) {v : Value} (hv : v.allFinite)
    (hkeys : v.UniqueKeys) : ∃ e next, Literal.ofValue print v 0 = .ok (e, next) ∧
      ∃ c, (Program.ofExpr e).evaluate none = .ok (some c) ∧ Evaluation.Recovers v.stripped c := by
  by_cases hne : v = .undefined
  · subst hne
    obtain ⟨c, m', hc, hreading⟩ := Evaluation.gives_baseline Baseline.constant_undefined
      (m := .empty) rfl
    exact ⟨_, _, rfl, c, Program.evaluate_ofExpr hc, .undefined, hreading, rfl⟩
  · obtain ⟨j, hj, hfinite⟩ := Value.toJson_of_allFinite v hne hv
    obtain ⟨e, next, hjson, hspells, hids⟩ := ofJson_spells hprint hfinite 0
    obtain ⟨c, m', hc, hrecovers⟩ := Evaluation.answer_recovers
      (s := .ofProgram (.ofExpr e) none) (m := .empty) rfl v hj hspells hkeys hids
      fun id hid => rfl
    refine ⟨e, next, ?_, c, Program.evaluate_ofExpr hc, hrecovers⟩
    rw [ofValue_eq hne, hj]
    exact hjson

/-! ## Source texts -/

section

variable {source : String} {state? : Option Build.State}

theorem lastAnswer_error {e : FoldError} (h : lastAnswer source state? = .error e) :
    (∃ ds, e = .unreadable ds) ∨ ∃ f, e = .fault f := by
  unfold lastAnswer at h
  dsimp only at h
  split at h
  · cases h
    exact .inl ⟨_, rfl⟩
  · cases hrun : (parseProgram source).value.evaluate state? with
    | error f =>
      rw [hrun] at h
      cases h
      exact .inr ⟨f, rfl⟩
    | ok a => rw [hrun] at h; cases h

section Known

variable {c : Cell} (h : lastAnswer source state? = .ok (some c))

include h

theorem evaluateSource_of_known :
    evaluateSource source state? = (c.reading.mapError .fault).map some := by
  rw [evaluateSource, h]
  show (do return some (← c.reading.mapError FoldError.fault)) = _
  cases c.reading <;> rfl

theorem foldSource_of_known :
    foldSource print source state? =
      ((Literal.ofReading print c.reading).mapError .literal).map some := by
  rw [foldSource, h]
  show (do return some (← (Literal.ofReading print c.reading).mapError FoldError.literal)) = _
  cases Literal.ofReading print c.reading <;> rfl

/-- A known value that can be read is folded as its literal. -/
theorem foldSource_of_reading (hprint : Json.Compact print) {v : Value} (hc : c.reading = .ok v) :
    evaluateSource source state? = .ok (some v) ∧
      (v.allFinite = false → ∃ t, foldSource print source state? =
        .error (.literal (.notSerializable t))) ∧
      (v.allFinite = true → ∃ e c' w, foldSource print source state? = .ok (some e) ∧
        (Program.ofExpr e).evaluate none = .ok (some c') ∧ c'.reading = .ok w ∧
          (w == v.stripped) = true) := by
  rw [evaluateSource_of_known h, foldSource_of_known h, hc, Literal.ofReading_ok]
  refine ⟨rfl, fun hv => ?_, fun hv => ?_⟩
  · obtain ⟨t, ht⟩ := Value.toJson_of_not_allFinite v hv
    have hne : v ≠ .undefined := by
      rintro rfl
      cases hv
    rw [Literal.ofValue_eq hne, ht]
    exact ⟨t, rfl⟩
  · have hkeys : v.UniqueKeys := uniqueKeys_of_lastAnswer h v hc
    obtain ⟨e, next, he, c', hc', w, hw, heq⟩ := Literal.ofValue_recovers hprint hv hkeys
    rw [he]
    exact ⟨e, c', w, rfl, hc', hw, heq⟩

theorem foldSource_of_fault {f : Fault} (hc : c.reading = .error f) :
    evaluateSource source state? = .error (.fault f) ∧
      foldSource print source state? = .error (.literal (.fault f)) := by
  rw [evaluateSource_of_known h, foldSource_of_known h, hc]
  exact ⟨rfl, rfl⟩

end Known

end

/-- **Folding and evaluating agree, and literals round-trip.** -/
theorem foldSource_evaluateSource (print : Json.Printer) (hprint : Json.Compact print)
    (source : String) (state? : Option Build.State) :
    (evaluateSource source state? = .ok none ↔ foldSource print source state? = .ok none) ∧
    (∀ ds, evaluateSource source state? = .error (.unreadable ds) ↔
      foldSource print source state? = .error (.unreadable ds)) ∧
    (∀ f, evaluateSource source state? = .error (.fault f) ↔
      foldSource print source state? = .error (.fault f) ∨
        foldSource print source state? = .error (.literal (.fault f))) ∧
    (∀ f, foldSource print source state? = .error (.literal (.fault f)) ↔
      ∃ c, lastAnswer source state? = .ok (some c) ∧ c.reading = .error f) ∧
    (∀ ds, foldSource print source state? ≠ .error (.literal (.unreadable ds))) ∧
    (∀ message, foldSource print source state? ≠ .error (.literal (.unprintable message))) ∧
    ∀ v, evaluateSource source state? = .ok (some v) →
      ((∃ t, foldSource print source state? = .error (.literal (.notSerializable t))) ↔
        v.allFinite = false) ∧
      (v.allFinite = true → ∃ e c w, foldSource print source state? = .ok (some e) ∧
        (Program.ofExpr e).evaluate none = .ok (some c) ∧ c.reading = .ok w ∧
          (w == v.stripped) = true) := by
  cases h : lastAnswer source state? with
  | error e =>
    have hevaluate : evaluateSource source state? = .error e := by
      rw [evaluateSource, h]
      rfl
    have hfold : foldSource print source state? = .error e := by
      rw [foldSource, h]
      rfl
    rw [hevaluate, hfold]
    rcases lastAnswer_error h with ⟨ds, rfl⟩ | ⟨f, rfl⟩ <;> simp
  | ok a =>
    cases a with
    | none =>
      have hevaluate : evaluateSource source state? = .ok none := by
        rw [evaluateSource, h]
        rfl
      have hfold : foldSource print source state? = .ok none := by
        rw [foldSource, h]
        rfl
      rw [hevaluate, hfold]
      simp
    | some c =>
      cases hc : c.reading with
      | error f =>
        obtain ⟨hevaluate, hfold⟩ := foldSource_of_fault h hc
        rw [hevaluate, hfold]
        simp [hc]
      | ok v =>
        obtain ⟨hevaluate, hinfinite, hfinite⟩ := foldSource_of_reading h hprint hc
        rw [hevaluate]
        cases hv : v.allFinite with
        | false =>
          obtain ⟨t, ht⟩ := hinfinite hv
          rw [ht]
          simp [hc, hv]
        | true =>
          obtain ⟨e, c', w, he, hrest⟩ := hfinite hv
          rw [he]
          refine ⟨by simp, by simp, by simp, by simp [hc], by simp, by simp, fun u hu => ?_⟩
          cases hu
          exact ⟨by simp [hv], fun _ => ⟨e, c', w, rfl, hrest⟩⟩

/-- An array with something undefined at two depths has a literal. -/
theorem foldSource_nested_undefined :
    ∃ v e c w, evaluateSource "[undefined, { a: undefined, b: -2.5 }]" none = .ok (some v) ∧
      v.allFinite = true ∧
      foldSource Json.compact "[undefined, { a: undefined, b: -2.5 }]" none = .ok (some e) ∧
      (Program.ofExpr e).evaluate none = .ok (some c) ∧ c.reading = .ok w ∧
        (w == v.stripped) = true := by
  have hrun : (evaluateSource "[undefined, { a: undefined, b: -2.5 }]" none).toOption.any
      (·.any Value.allFinite) = true := by
    decide +kernel
  obtain ⟨-, -, -, -, -, -, hliteral⟩ :=
    foldSource_evaluateSource Json.compact Json.compact_isCompact
      "[undefined, { a: undefined, b: -2.5 }]" none
  rcases hevaluate : evaluateSource "[undefined, { a: undefined, b: -2.5 }]" none with e | (_ | v)
  · rw [hevaluate] at hrun
    cases hrun
  · rw [hevaluate] at hrun
    cases hrun
  · rw [hevaluate] at hrun
    obtain ⟨e, c, w, h⟩ := (hliteral v hevaluate).2 hrun
    exact ⟨v, e, c, w, rfl, hrun, h⟩

end ScriptFold
