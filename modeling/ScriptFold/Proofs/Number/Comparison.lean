import ScriptFold.Number.Word

/-!
Comparing numbers.

Two numbers have an outcome, less, equal or greater, unless one of them is not a number. Compared
the other way round they have the opposite outcome. So equality is symmetric, and of two numbers
exactly one is less, or they are equal.
-/

namespace ScriptFold.Number

open Float.Model

/-! ## Outcomes -/

/-- The outcome of comparing two numbers; none where one of them is not a number. -/
def outcome (x y : Float) : Option Ordering := x.toModel.unpack.compare y.toModel.unpack

theorem compare_swap (a b : UnpackedFloat) : b.compare a = (a.compare b).map Ordering.swap := by
  cases a with
  | notANumber => cases b <;> rfl
  | infinity s =>
    cases b with
    | infinity t => cases s <;> cases t <;> rfl
    | _ => cases s <;> rfl
  | zero s =>
    cases b with
    | infinity t | finite t => cases t <;> rfl
    | _ => rfl
  | finite s m e hm =>
    cases b with
    | notANumber => rfl
    | infinity t => cases s <;> cases t <;> rfl
    | zero t => cases s <;> rfl
    | finite t n f hn =>
      have hswap : (compare f e).then (compare n m) = ((compare e f).then (compare m n)).swap := by
        rw [Ordering.swap_then, Std.OrientedOrd.eq_swap (a := f), Std.OrientedOrd.eq_swap (a := n)]
      cases s <;> cases t
      · -- Below zero the greater size is less.
        exact congrArg (fun o => some (Ordering.swap o)) hswap
      · rfl
      · rfl
      · exact congrArg some hswap

theorem compare_eq_none_iff (a b : UnpackedFloat) :
    a.compare b = none ↔ a.isNaN ∨ b.isNaN := by
  have hsome {a b : UnpackedFloat} {o : Ordering} (h : a.compare b = some o)
      (ha : a.isNaN = false) (hb : b.isNaN = false) :
      a.compare b = none ↔ a.isNaN ∨ b.isNaN := by simp [h, ha, hb]
  cases a with
  | notANumber => cases b <;> exact iff_of_true rfl (.inl rfl)
  | infinity s =>
    cases b with
    | notANumber => cases s <;> exact iff_of_true rfl (.inr rfl)
    | infinity t => cases s <;> cases t <;> exact hsome rfl rfl rfl
    | zero t | finite t => cases s <;> exact hsome rfl rfl rfl
  | zero s =>
    cases b with
    | notANumber => exact iff_of_true rfl (.inr rfl)
    | zero t => exact hsome rfl rfl rfl
    | infinity t | finite t => cases t <;> exact hsome rfl rfl rfl
  | finite s m e hm =>
    cases b with
    | notANumber => cases s <;> exact iff_of_true rfl (.inr rfl)
    | zero t => cases s <;> exact hsome rfl rfl rfl
    | infinity t | finite t => cases s <;> cases t <;> exact hsome rfl rfl rfl

theorem outcome_swap (x y : Float) : outcome y x = (outcome x y).map Ordering.swap :=
  compare_swap _ _

theorem outcome_eq_none_iff {x y : Float} : outcome x y = none ↔ x.isNaN ∨ y.isNaN :=
  compare_eq_none_iff _ _

theorem beq_iff {x y : Float} : (x == y) = true ↔ outcome x y = some .eq :=
  (beq_iff_eq : (outcome x y == some .eq) = true ↔ outcome x y = some .eq)

theorem lt_iff {x y : Float} : x < y ↔ outcome x y = some .lt := by
  have hlt : x < y ↔ decide (x.toModel < y.toModel) = true := Iff.rfl
  rw [hlt, decide_eq_true_iff]
  exact beq_iff_eq

/-! ## Laws -/

theorem beq_comm (x y : Float) : (x == y) = (y == x) := by
  rw [Bool.eq_iff_iff, beq_iff, beq_iff, outcome_swap x y]
  cases outcome x y with
  | none => simp
  | some o => cases o <;> simp

/-- Of two numbers exactly one is less, or they are equal. -/
theorem lt_trichotomy {x y : Float} (hx : x.isNaN = false) (hy : y.isNaN = false) :
    x < y ∧ (x == y) = false ∧ ¬y < x ∨ ¬x < y ∧ (x == y) = true ∧ ¬y < x ∨
      ¬x < y ∧ (x == y) = false ∧ y < x := by
  have hsome : outcome x y ≠ none := by
    rw [Ne, outcome_eq_none_iff, hx, hy]
    simp
  rw [Bool.eq_false_iff, Ne, beq_iff, lt_iff, lt_iff, outcome_swap x y]
  cases houtcome : outcome x y with
  | none => exact absurd houtcome hsome
  | some o => cases o <;> simp

end ScriptFold.Number
