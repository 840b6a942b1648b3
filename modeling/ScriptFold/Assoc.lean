/-!
Association lists that hold a key at most once, in the order in which the keys first came.

`put` changes the value of a key in its place and puts a new key at the end. Reading is
`List.lookup`.
-/

namespace ScriptFold.Assoc

variable {α β : Type} [DecidableEq α]

/-- Gives a key a value. A key that is there keeps its place. -/
def put (k : α) (v : β) : List (α × β) → List (α × β)
  | [] => [(k, v)]
  | (k', w) :: rest => if k' = k then (k, v) :: rest else (k', w) :: put k v rest

/-- The list that holds each key once: first place, last value. -/
def ofList (entries : List (α × β)) : List (α × β) :=
  entries.foldl (fun xs e => put e.1 e.2 xs) []

theorem lookup_put_self (k : α) (v : β) (xs : List (α × β)) :
    (put k v xs).lookup k = some v := by
  induction xs with
  | nil => simp [put]
  | cons e rest ih =>
    obtain ⟨k₀, w⟩ := e
    by_cases h : k₀ = k
    · simp only [put, h, if_true, List.lookup_cons, beq_self_eq_true]
    · have hk : (k == k₀) = false := beq_false_of_ne (Ne.symm h)
      simp only [put, h, if_false, List.lookup_cons, hk, ih]

theorem lookup_put_of_ne {k k' : α} (h : k' ≠ k) (v : β) (xs : List (α × β)) :
    (put k v xs).lookup k' = xs.lookup k' := by
  induction xs with
  | nil =>
    have hk : (k' == k) = false := by simp [h]
    simp [put, List.lookup_cons, hk]
  | cons e rest ih =>
    obtain ⟨k₀, w⟩ := e
    by_cases he : k₀ = k
    · subst he
      have hk : (k' == k₀) = false := by simp [h]
      simp [put, List.lookup_cons, hk]
    · simp only [put, he, if_false, List.lookup_cons, ih]

theorem keys_put (k : α) (v : β) (xs : List (α × β)) :
    (put k v xs).map Prod.fst =
      if k ∈ xs.map Prod.fst then xs.map Prod.fst else xs.map Prod.fst ++ [k] := by
  induction xs with
  | nil => simp [put]
  | cons e rest ih =>
    by_cases h : e.1 = k
    · simp [put, h]
    · have hk : ¬ k = e.1 := Ne.symm h
      simp only [put, h, if_false, List.map_cons, ih, List.mem_cons, hk, false_or]
      split <;> simp

theorem nodup_keys_put (k : α) (v : β) {xs : List (α × β)} (h : (xs.map Prod.fst).Nodup) :
    ((put k v xs).map Prod.fst).Nodup := by
  rw [keys_put]
  split
  · exact h
  · rw [List.nodup_append]
    refine ⟨h, by simp, ?_⟩
    rintro a ha b hb rfl
    simp_all

theorem nodup_keys_ofList (entries : List (α × β)) :
    ((ofList entries).map Prod.fst).Nodup := by
  suffices ∀ xs : List (α × β), (xs.map Prod.fst).Nodup →
      ((entries.foldl (fun xs e => put e.1 e.2 xs) xs).map Prod.fst).Nodup from
    this [] (by simp)
  induction entries with
  | nil => simp
  | cons e rest ih => exact fun xs h => ih _ (nodup_keys_put _ _ h)

end ScriptFold.Assoc
