import ScriptFold.Operator
import ScriptFold.Proofs.Number.Comparison
import ScriptFold.Proofs.Text.Units

/-!
The relational operators.

All four ask for one comparison, in one direction or the other. It has an outcome in both
directions or in none, and the outcomes do not contradict each other. Two texts always have one.
-/

namespace ScriptFold

/-- What an operator gives for two values. -/
def BinaryOp.result? (op : BinaryOp) (a b : Value) : Option Value := op.function?.map fun f => f a b

namespace Value

variable {a b : Value} {s t : String}

/-! ## One comparison -/

theorem less?_of_texts (ha : a.toPrimitive = .string s) (hb : b.toPrimitive = .string t) :
    a.less? b = some (Text.unitsBefore s t) := by
  rw [less?, ha, hb]

theorem less?_of_numbers
    (h : ∀ s t, a.toPrimitive = .string s → b.toPrimitive ≠ .string t) :
    a.less? b =
      if a.toPrimitive.toNumber.isNaN || b.toPrimitive.toNumber.isNaN then none
      else some (decide (a.toPrimitive.toNumber < b.toPrimitive.toNumber)) := by
  unfold less?
  split
  · rename_i s t hs ht
    exact absurd ht (h s t hs)
  · rfl

/-- **Both directions.** There is an outcome in both directions or in none; no two values come
before each other. -/
theorem less?_directions (a b : Value) :
    (a.less? b = none ∧ b.less? a = none) ∨
      ∃ before after, a.less? b = some before ∧ b.less? a = some after ∧ ¬(before ∧ after) := by
  by_cases htexts : ∃ s t, a.toPrimitive = .string s ∧ b.toPrimitive = .string t
  · obtain ⟨s, t, ha, hb⟩ := htexts
    have horder := Text.isStrictTotalOrder_unitsBefore
    refine .inr ⟨_, _, less?_of_texts ha hb, less?_of_texts hb ha, fun ⟨hst, hts⟩ => ?_⟩
    exact horder.irrefl s (horder.trans s t s hst hts)
  have hab : ∀ s t, a.toPrimitive = .string s → b.toPrimitive ≠ .string t :=
    fun s t ha hb => htexts ⟨s, t, ha, hb⟩
  have hba : ∀ s t, b.toPrimitive = .string s → a.toPrimitive ≠ .string t :=
    fun s t hb ha => htexts ⟨t, s, ha, hb⟩
  rw [less?_of_numbers hab, less?_of_numbers hba]
  generalize a.toPrimitive.toNumber = x
  generalize b.toPrimitive.toNumber = y
  by_cases hnan : x.isNaN || y.isNaN
  · have hnan' : y.isNaN || x.isNaN := by rwa [Bool.or_comm]
    rw [if_pos hnan, if_pos hnan']
    exact .inl ⟨rfl, rfl⟩
  · have hnan' : ¬(y.isNaN || x.isNaN) := by rwa [Bool.or_comm]
    obtain ⟨hx, hy⟩ := Bool.or_eq_false_iff.1 (Bool.eq_false_iff.2 hnan)
    rw [if_neg hnan, if_neg hnan']
    refine .inr ⟨_, _, rfl, rfl, ?_⟩
    rw [decide_eq_true_iff, decide_eq_true_iff]
    rcases Number.lt_trichotomy hx hy with ⟨-, -, h⟩ | ⟨h, -, -⟩ | ⟨h, -, -⟩
    · exact fun hboth => h hboth.2
    · exact fun hboth => h hboth.1
    · exact fun hboth => h hboth.1

/-! ## Four operators -/

/-- **The relational operators are coherent.** For any two values there is no outcome in either
direction, and then all four operators are false; or there is one in both directions, and then the
first value is greater where the second one is less, each of the operators that include equality
is the negation of the opposite strict one, and the two values are not both less than each other.
Two texts always have an outcome. It is a strict total order, that of their units from the left:
of two texts neither of which is less than the other both are the same text. -/
theorem relations_coherent :
    (∀ a b : Value,
      (a.less? b = none ∧ b.less? a = none ∧
        ∀ op ∈ [BinaryOp.lt, .gt, .le, .ge], op.result? a b = some (.bool false)) ∨
      ∃ before after : Bool, a.less? b = some before ∧ b.less? a = some after ∧
        BinaryOp.lt.result? a b = some (.bool before) ∧
        BinaryOp.gt.result? a b = some (.bool after) ∧
        BinaryOp.lt.result? b a = some (.bool after) ∧
        BinaryOp.le.result? a b = some (.bool !after) ∧
        BinaryOp.ge.result? a b = some (.bool !before) ∧ ¬(before ∧ after)) ∧
    (∀ s t : String,
      (string s).less? (string t) = some (decide (Text.units s < Text.units t))) ∧
    IsStrictTotalOrder String (fun s t => (string s).less? (string t) = some true) ∧
    ∀ s t : String, BinaryOp.lt.result? (string s) (string t) = some (.bool false) →
      BinaryOp.lt.result? (string t) (string s) = some (.bool false) → s = t := by
  have htexts (s t : String) : (string s).less? (string t) = some (Text.unitsBefore s t) :=
    less?_of_texts rfl rfl
  have horder := Text.isStrictTotalOrder_unitsBefore
  refine ⟨fun a b => ?_, htexts, ?_, fun s t hst hts => ?_⟩
  · rcases less?_directions a b with ⟨hab, hba⟩ | ⟨before, after, hab, hba, hboth⟩
    · refine .inl ⟨hab, hba, ?_⟩
      simp [BinaryOp.result?, BinaryOp.function?, hab, hba]
    · refine .inr ⟨before, after, hab, hba, ?_⟩
      cases before <;> cases after <;>
        simp [BinaryOp.result?, BinaryOp.function?, hab, hba] at hboth ⊢
  · simpa only [htexts, Option.some.injEq] using horder
  · simp only [BinaryOp.result?, BinaryOp.function?, Option.map_some, htexts, Option.some.injEq,
      bool.injEq] at hst hts
    exact horder.trichotomous s t (by simpa using hst) (by simpa using hts)

/-- A pair of units comes before a character that comes before the characters that are pairs. -/
theorem relations_coherent_pair :
    (string "😀").less? (string "\uffff") = some true ∧
      (string "\uffff").less? (string "😀") ≠ some true := by
  have hless : (string "😀").less? (string "\uffff") = some true := rfl
  obtain ⟨-, -, horder, -⟩ := relations_coherent
  exact ⟨hless, fun h => horder.irrefl _ (horder.trans _ _ _ hless h)⟩

end Value

end ScriptFold
