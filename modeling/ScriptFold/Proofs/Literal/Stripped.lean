import Mathlib
import ScriptFold.Literal
import ScriptFold.Proofs.Evaluation.UniqueKeys
import ScriptFold.Proofs.Literal.Compact

/-!
What of a value a JSON text can hold.

Numbers must be finite. Undefined cannot be written: as an item of an array it becomes null, and
an entry of an object that holds it is left out.
-/

namespace ScriptFold

namespace Value

mutual

/-- No number in the value is infinite or not a number. -/
def allFinite : Value → Bool
  | number x => x.isFinite
  | array _ items => allFiniteItems items
  | object _ entries => allFiniteEntries entries
  | undefined | null | bool _ | string _ => true

def allFiniteItems : List Value → Bool
  | [] => true
  | item :: rest => allFinite item && allFiniteItems rest

def allFiniteEntries : List (String × Value) → Bool
  | [] => true
  | (_, value) :: rest => allFinite value && allFiniteEntries rest

end

mutual

/-- The value with null for undefined items and without undefined entries, at every depth. -/
def stripped : Value → Value
  | array i items => array i (strippedItems items)
  | object i entries => object i (strippedEntries entries)
  | undefined => undefined
  | null => null
  | bool b => bool b
  | number x => number x
  | string s => string s

def strippedItems : List Value → List Value
  | [] => []
  | undefined :: rest => null :: strippedItems rest
  | item :: rest => stripped item :: strippedItems rest

def strippedEntries : List (String × Value) → List (String × Value)
  | [] => []
  | (_, undefined) :: rest => strippedEntries rest
  | (key, value) :: rest => (key, stripped value) :: strippedEntries rest

end

theorem keys_strippedEntries (entries : List (String × Value)) :
    ((strippedEntries entries).map Prod.fst).Sublist (entries.map Prod.fst) := by
  induction entries with
  | nil => exact List.Sublist.refl _
  | cons e rest ih =>
    obtain ⟨key, value⟩ := e
    cases value with
    | undefined => exact ih.cons key
    | _ => exact ih.cons_cons key

/-! ## JSON values -/

theorem toJsonItems_cons {item : Value} (h : item ≠ undefined) (rest : List Value) :
    toJsonItems (item :: rest) = do return (← toJson item) :: (← toJsonItems rest) := by
  rw [toJsonItems]
  exact h

theorem toJsonEntries_cons {key : String} {value : Value} (h : value ≠ undefined)
    (rest : List (String × Value)) :
    toJsonEntries ((key, value) :: rest) =
      do return (key, ← toJson value) :: (← toJsonEntries rest) := by
  rw [toJsonEntries]
  exact h

theorem beq_self_of_isFinite {x : Float} (hx : x.isFinite) : (x == x) = true := by
  refine Float.beq_self_iff.2 ?_
  rintro rfl
  revert hx
  decide +kernel

theorem numberJson_of_isFinite {x : Float} (hx : x.isFinite) :
    ∃ j, numberJson x = .ok j ∧ j.Printable ∧ ∃ y, j.number? = some y ∧ (y == x) = true := by
  rw [numberJson, if_pos hx]
  split
  · rename_i h
    rw [Bool.and_eq_true, decide_eq_true_eq] at h
    have hbound : (Number.whole x).natAbs < 2 ^ 63 := lt_of_le_of_lt h.2 (by decide)
    exact ⟨.int (Number.whole x), rfl, hbound, _, rfl, h.1⟩
  · exact ⟨.float x, rfl, hx, x, rfl, beq_self_of_isFinite hx⟩

theorem numberJson_error {x : Float} (hx : x.isFinite = false) :
    ∃ t, numberJson x = .error (.notSerializable t) := by
  rw [numberJson]
  exact ⟨_, if_neg (by simp [hx])⟩

/-- The JSON value of a number, if there is one, equals the number. -/
theorem number_of_numberJson {x : Float} {j : Json} (h : numberJson x = .ok j) :
    ∃ y, j.number? = some y ∧ (y == x) = true := by
  cases hx : x.isFinite with
  | true =>
    obtain ⟨j', hj', -, hnumber⟩ := numberJson_of_isFinite hx
    cases h.symm.trans hj'
    exact hnumber
  | false =>
    obtain ⟨t, ht⟩ := numberJson_error hx
    cases h.symm.trans ht

mutual

theorem toJson_of_allFinite (v : Value) (hne : v ≠ undefined) (hv : v.allFinite) :
    ∃ j, v.toJson = .ok j ∧ j.Printable :=
  match v with
  | undefined => absurd rfl hne
  | null => ⟨.null, rfl, trivial⟩
  | bool b => ⟨.bool b, rfl, trivial⟩
  | string s => ⟨.string s, rfl, trivial⟩
  | number x => by
    obtain ⟨j, hj, hfinite, -⟩ := numberJson_of_isFinite hv
    exact ⟨j, hj, hfinite⟩
  | array i items => by
    obtain ⟨js, hjs, hfinite⟩ := toJsonItems_of_allFinite items hv
    refine ⟨.array js, ?_, hfinite⟩
    rw [toJson, hjs]
    rfl
  | object i entries => by
    obtain ⟨js, hjs, hfinite⟩ := toJsonEntries_of_allFinite entries hv
    refine ⟨.object js, ?_, hfinite⟩
    rw [toJson, hjs]
    rfl

theorem toJsonItems_of_allFinite (items : List Value) (h : allFiniteItems items) :
    ∃ js, toJsonItems items = .ok js ∧ Json.PrintableItems js :=
  match items with
  | [] => ⟨[], rfl, trivial⟩
  | item :: rest => by
    rw [allFiniteItems, Bool.and_eq_true] at h
    obtain ⟨js, hjs, hfinite⟩ := toJsonItems_of_allFinite rest h.2
    by_cases hitem : item = undefined
    · subst hitem
      refine ⟨.null :: js, ?_, trivial, hfinite⟩
      rw [toJsonItems, hjs]
      rfl
    · obtain ⟨j, hj, hjfinite⟩ := toJson_of_allFinite item hitem h.1
      refine ⟨j :: js, ?_, hjfinite, hfinite⟩
      rw [toJsonItems_cons hitem, hj, hjs]
      rfl

theorem toJsonEntries_of_allFinite (entries : List (String × Value)) (h : allFiniteEntries entries) :
    ∃ js, toJsonEntries entries = .ok js ∧ Json.PrintableEntries js :=
  match entries with
  | [] => ⟨[], rfl, trivial⟩
  | (key, value) :: rest => by
    rw [allFiniteEntries, Bool.and_eq_true] at h
    obtain ⟨js, hjs, hfinite⟩ := toJsonEntries_of_allFinite rest h.2
    by_cases hvalue : value = undefined
    · subst hvalue
      exact ⟨js, by rw [toJsonEntries, hjs], hfinite⟩
    · obtain ⟨j, hj, hjfinite⟩ := toJson_of_allFinite value hvalue h.1
      refine ⟨(key, j) :: js, ?_, hjfinite, hfinite⟩
      rw [toJsonEntries_cons hvalue, hj, hjs]
      rfl

end

mutual

theorem toJson_of_not_allFinite (v : Value) (hv : v.allFinite = false) :
    ∃ t, v.toJson = .error (.notSerializable t) :=
  match v with
  | undefined | null | bool _ | string _ => by cases hv
  | number x => numberJson_error hv
  | array i items => by
    obtain ⟨t, ht⟩ := toJsonItems_of_not_allFinite items hv
    exact ⟨t, by rw [toJson, ht]; rfl⟩
  | object i entries => by
    obtain ⟨t, ht⟩ := toJsonEntries_of_not_allFinite entries hv
    exact ⟨t, by rw [toJson, ht]; rfl⟩

theorem toJsonItems_of_not_allFinite (items : List Value) (h : allFiniteItems items = false) :
    ∃ t, toJsonItems items = .error (.notSerializable t) :=
  match items with
  | [] => by cases h
  | item :: rest => by
    by_cases hitem : item = undefined
    · subst hitem
      obtain ⟨t, ht⟩ := toJsonItems_of_not_allFinite rest h
      exact ⟨t, by rw [toJsonItems, ht]; rfl⟩
    rw [toJsonItems_cons hitem]
    cases hfinite : item.allFinite with
    | false =>
      obtain ⟨t, ht⟩ := toJson_of_not_allFinite item hfinite
      exact ⟨t, by rw [ht]; rfl⟩
    | true =>
      obtain ⟨j, hj, -⟩ := toJson_of_allFinite item hitem hfinite
      rw [allFiniteItems, hfinite, Bool.true_and] at h
      obtain ⟨t, ht⟩ := toJsonItems_of_not_allFinite rest h
      exact ⟨t, by rw [hj, ht]; rfl⟩

theorem toJsonEntries_of_not_allFinite (entries : List (String × Value))
    (h : allFiniteEntries entries = false) :
    ∃ t, toJsonEntries entries = .error (.notSerializable t) :=
  match entries with
  | [] => by cases h
  | (key, value) :: rest => by
    by_cases hvalue : value = undefined
    · subst hvalue
      obtain ⟨t, ht⟩ := toJsonEntries_of_not_allFinite rest h
      exact ⟨t, by rw [toJsonEntries, ht]⟩
    rw [toJsonEntries_cons hvalue]
    cases hfinite : value.allFinite with
    | false =>
      obtain ⟨t, ht⟩ := toJson_of_not_allFinite value hfinite
      exact ⟨t, by rw [ht]; rfl⟩
    | true =>
      obtain ⟨j, hj, -⟩ := toJson_of_allFinite value hvalue hfinite
      rw [allFiniteEntries, hfinite, Bool.true_and] at h
      obtain ⟨t, ht⟩ := toJsonEntries_of_not_allFinite rest h
      exact ⟨t, by rw [hj, ht]; rfl⟩

end

end Value

end ScriptFold
