import ScriptFold.Version

/-!
The order of versions.

Versions are compared by their numbers and then by their tags. That this order is total comes from
the same fact about parts of a tag and about tags: each level has the classes `Std.TransOrd` or
`Std.TransCmp` for transitivity and `Std.LawfulEqOrd` or `Std.LawfulEqCmp` for equality. A release
comes after its pre-releases, and `0.0.0-0` comes before all other versions.
-/

namespace ScriptFold

namespace Tag

theorem compare_numeric (n m : Nat) :
    Ord.compare (numeric n) (numeric m) = Ord.compare n m := rfl

theorem compare_alpha (s t : String) :
    Ord.compare (alpha s) (alpha t) = Ord.compare s t := rfl

instance : Std.TransOrd Tag where
  eq_swap {t u} := by
    cases t <;> cases u
    · exact Std.OrientedOrd.eq_swap (α := Nat)
    · rfl
    · rfl
    · exact Std.OrientedOrd.eq_swap (α := String)
  isLE_trans {t u w} htu huw := by
    cases t with
    | numeric n =>
      cases w with
      | alpha s => rfl
      | numeric k =>
        -- A word between two numbers would come after the second one.
        cases u with
        | numeric m => exact Std.TransOrd.isLE_trans (α := Nat) htu huw
        | alpha s => cases huw
    | alpha s =>
      cases u with
      | numeric m => cases htu
      | alpha s' =>
        cases w with
        | numeric k => cases huw
        | alpha s'' => exact Std.TransOrd.isLE_trans (α := String) htu huw

instance : Std.LawfulEqOrd Tag where
  compare_self {t} := by
    cases t with
    | numeric n => exact Std.compare_self (α := Nat)
    | alpha s => exact Std.compare_self (α := String)
  eq_of_compare {t u} h := by
    cases t <;> cases u
    · rw [compare_numeric] at h
      rw [Std.LawfulEqOrd.eq_of_compare h]
    · cases h
    · cases h
    · rw [compare_alpha] at h
      rw [Std.LawfulEqOrd.eq_of_compare h]

/-- No part of a tag comes before the number zero. -/
theorem isLE_zero_compare (t : Tag) : (Ord.compare (numeric 0) t).isLE := by
  cases t with
  | numeric n => exact Nat.isLE_compare.2 (Nat.zero_le n)
  | alpha s => rfl

end Tag

namespace Version

/-! ## Tags -/

theorem compareTags_cons (t u : Tag) (ts us : List Tag) :
    compareTags (t :: ts) (u :: us) = (Ord.compare t u).then (Ord.compare ts us) :=
  List.compareLex_cons_cons

instance : Std.TransCmp compareTags where
  eq_swap {ts us} := by
    cases ts <;> cases us
    · rfl
    · rfl
    · rfl
    · exact Std.OrientedOrd.eq_swap (α := List Tag)
  isLE_trans {ts us ws} htu huw := by
    -- Only releases come after releases.
    cases ws with
    | nil => cases ts <;> rfl
    | cons w ws =>
      cases us with
      | nil => cases huw
      | cons u us =>
        cases ts with
        | nil => cases htu
        | cons t ts => exact Std.TransOrd.isLE_trans (α := List Tag) htu huw

instance : Std.LawfulEqCmp compareTags where
  compare_self {ts} := by
    cases ts with
    | nil => rfl
    | cons t ts => exact Std.compare_self (α := List Tag)
  eq_of_compare {ts us} h := by
    cases ts <;> cases us
    · rfl
    · cases h
    · cases h
    · exact Std.LawfulEqOrd.eq_of_compare (α := List Tag) h

theorem isLE_zero_compareTags (ts : List Tag) : (compareTags [.numeric 0] ts).isLE := by
  cases ts with
  | nil => rfl
  | cons t ts =>
    rw [compareTags_cons, Ordering.isLE_then_iff_or]
    cases h : Ord.compare (Tag.numeric 0) t with
    | lt => exact .inl rfl
    | eq => exact .inr ⟨rfl, by cases ts <;> rfl⟩
    | gt =>
      have hle := t.isLE_zero_compare
      rw [h] at hle
      cases hle

/-! ## Versions -/

theorem compare_eq_compareLex :
    compare = compareLex (compareOn major) (compareLex (compareOn minor)
      (compareLex (compareOn patch) fun v w => compareTags v.tags w.tags)) := rfl

instance : Std.TransCmp fun v w : Version => compareTags v.tags w.tags where
  eq_swap := (inferInstance : Std.TransCmp compareTags).eq_swap
  isLE_trans := (inferInstance : Std.TransCmp compareTags).isLE_trans

instance : Std.TransCmp compare := by
  rw [compare_eq_compareLex]
  infer_instance

theorem compare_eq_eq_iff {v w : Version} : v.compare w = .eq ↔ v = w := by
  simp only [compare, Ordering.then_eq_eq, Std.LawfulEqCmp.compare_eq_iff_eq]
  cases v
  cases w
  simp only [mk.injEq]

instance : Std.LawfulEqCmp compare where
  compare_self := compare_eq_eq_iff.2 rfl
  eq_of_compare := compare_eq_eq_iff.1

/-- Versions with the same numbers are in the order of their tags. -/
theorem compare_tags (a b c : Nat) (ts us : List Tag) :
    compare ⟨a, b, c, ts⟩ ⟨a, b, c, us⟩ = compareTags ts us := by
  simp only [compare, Std.compare_self]
  rfl

/-- The version `x.y.z-0` is the least version with its numbers. -/
theorem isLE_floor_compare (v : Version) : ((floor v.major v.minor v.patch).compare v).isLE := by
  rw [floor, compare_tags]
  exact isLE_zero_compareTags v.tags

theorem isLE_then {o o' : Ordering} (h : o.isLE) (h' : o'.isLE) : (o.then o').isLE := by
  cases o with
  | lt => rfl
  | eq => exact h'
  | gt => cases h

/-- The version `0.0.0-0` is the least version. -/
theorem isLE_least_compare (v : Version) : ((floor 0 0 0).compare v).isLE := by
  have hzero (n : Nat) : (Ord.compare 0 n).isLE := Nat.isLE_compare.2 (Nat.zero_le n)
  exact isLE_then (hzero v.major) <| isLE_then (hzero v.minor) <| isLE_then (hzero v.patch) <|
    isLE_zero_compareTags v.tags

/-- **The order of versions is total.** Of two versions either one comes before the other or they
are equal; comparing the other way round gives the opposite answer; the order is transitive. A
release comes after its pre-releases, `x.y.z-0` is the least version with the numbers `x.y.z`, and
`0.0.0-0` is the least version. -/
theorem compare_total (u v w : Version) :
    ((v.compare w = .lt ∧ v ≠ w ∧ v.compare w ≠ .gt) ∨
      (v.compare w ≠ .lt ∧ v = w ∧ v.compare w ≠ .gt) ∨
      (v.compare w ≠ .lt ∧ v ≠ w ∧ v.compare w = .gt)) ∧
    (v.compare w = .eq ↔ v = w) ∧
    w.compare v = (v.compare w).swap ∧
    ((u.compare v).isLE → (v.compare w).isLE → (u.compare w).isLE) ∧
    (∀ ts, ts ≠ [] → compare { v with tags := ts } { v with tags := [] } = .lt) ∧
    (∀ ts, ((floor v.major v.minor v.patch).compare { v with tags := ts }).isLE) ∧
    ((floor 0 0 0).compare v).isLE := by
  refine ⟨?_, compare_eq_eq_iff, Std.OrientedCmp.eq_swap, Std.TransCmp.isLE_trans, fun ts hts => ?_,
    fun ts => isLE_floor_compare { v with tags := ts }, isLE_least_compare v⟩
  · have heq : v = w ↔ v.compare w = .eq := compare_eq_eq_iff.symm
    cases h : v.compare w <;> simp [heq, h]
  · obtain ⟨t, ts, rfl⟩ := List.exists_cons_of_ne_nil hts
    exact compare_tags ..

/-- The pre-release `1.2.3-9` comes before `1.2.3-a`, and this before the release. -/
theorem compare_total_of_prereleases :
    let u : Version := ⟨1, 2, 3, [.numeric 9]⟩
    let v : Version := ⟨1, 2, 3, [.alpha "a"]⟩
    let w : Version := ⟨1, 2, 3, []⟩
    (u.compare v).isLE ∧ (v.compare w).isLE ∧ (u.compare w).isLE ∧
      u.tags ≠ [] ∧ u.compare w = .lt := by
  intro u v w
  have huv : (u.compare v).isLE := by decide
  have hvw : (v.compare w).isLE := by decide
  have htags : u.tags ≠ [] := List.cons_ne_nil _ _
  obtain ⟨-, -, -, htrans, hrelease, -⟩ := compare_total u v w
  exact ⟨huv, hvw, htrans huv hvw, htags, hrelease u.tags htags⟩

end Version

end ScriptFold
