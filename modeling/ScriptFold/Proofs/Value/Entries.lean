import Mathlib.Data.List.Induction
import ScriptFold.Value.Property

/-!
The entries of objects.

The entries that an object keeps are determined by those it is made from: their keys are in the
order of the first occurrences, and each key has the value of its last occurrence.
-/

namespace ScriptFold

namespace Assoc

variable {α β : Type} [DecidableEq α]

theorem mem_put {k : α} {v : β} {xs : List (α × β)} {e : α × β} (h : e ∈ put k v xs) :
    e = (k, v) ∨ e ∈ xs := by
  induction xs with
  | nil => simpa [put] using h
  | cons x rest ih =>
    rw [put] at h
    split at h
    · rcases List.mem_cons.1 h with rfl | h
      · exact .inl rfl
      · exact .inr (List.mem_cons_of_mem _ h)
    · rcases List.mem_cons.1 h with rfl | h
      · exact .inr List.mem_cons_self
      · exact (ih h).imp_right (List.mem_cons_of_mem _)

theorem mem_ofList {entries : List (α × β)} {e : α × β} (h : e ∈ ofList entries) :
    e ∈ entries := by
  suffices ∀ xs : List (α × β), e ∈ entries.foldl (fun xs e => put e.1 e.2 xs) xs →
      e ∈ xs ∨ e ∈ entries from (this [] h).resolve_left (by simp)
  clear h
  induction entries with
  | nil => exact fun xs h => .inl h
  | cons x rest ih =>
    intro xs h
    rcases ih _ h with h | h
    · rcases mem_put h with rfl | h
      · exact .inr List.mem_cons_self
      · exact .inl h
    · exact .inr (List.mem_cons_of_mem _ h)

theorem put_of_not_mem {k : α} {v : β} {xs : List (α × β)} (h : k ∉ xs.map Prod.fst) :
    put k v xs = xs ++ [(k, v)] := by
  induction xs with
  | nil => rfl
  | cons x rest ih =>
    simp only [List.map_cons, List.mem_cons, not_or] at h
    rw [put, if_neg (Ne.symm h.1), ih h.2, List.cons_append]

/-- A list that holds each key once stays as it is. -/
theorem ofList_of_nodup {entries : List (α × β)} (h : (entries.map Prod.fst).Nodup) :
    ofList entries = entries := by
  suffices ∀ xs : List (α × β), ((xs ++ entries).map Prod.fst).Nodup →
      entries.foldl (fun xs e => put e.1 e.2 xs) xs = xs ++ entries from this [] h
  clear h
  induction entries with
  | nil => simp
  | cons e rest ih =>
    intro xs h
    have he : e.1 ∉ xs.map Prod.fst := by
      rw [List.map_append, List.nodup_append] at h
      intro hmem
      exact h.2.2 _ hmem e.1 (by simp) rfl
    rw [List.foldl_cons, put_of_not_mem he, ih]
    · rw [List.append_assoc, List.singleton_append]
    · rwa [List.append_assoc, List.singleton_append]

/-- The list `kept` holds the keys of `entries` once each, in the order in which they first come,
and each with the value that comes last. -/
structure Merges (entries kept : List (α × β)) : Prop where
  keys : kept.map Prod.fst = (entries.map Prod.fst).eraseDups
  once : (kept.map Prod.fst).Nodup
  lookup : ∀ k, kept.lookup k = entries.reverse.lookup k

theorem eraseDups_concat (ks : List α) (k : α) :
    (ks ++ [k]).eraseDups = if k ∈ ks then ks.eraseDups else ks.eraseDups ++ [k] := by
  rw [List.eraseDups_append]
  by_cases hk : k ∈ ks <;> simp [List.removeAll, List.eraseDups_cons, hk]

theorem Merges.concat {entries kept : List (α × β)} (h : Merges entries kept) (k : α) (v : β) :
    Merges (entries ++ [(k, v)]) (put k v kept) where
  keys := by
    rw [keys_put, h.keys, List.map_append, List.map_singleton, eraseDups_concat]
    simp only [List.mem_eraseDups]
  once := nodup_keys_put k v h.once
  lookup k' := by
    rw [List.reverse_append, List.reverse_singleton, List.singleton_append]
    by_cases hk : k' = k
    · subst hk
      rw [lookup_put_self, List.lookup_cons_self]
    · rw [lookup_put_of_ne hk, h.lookup, List.lookup_cons, beq_false_of_ne hk]

theorem merges_ofList (entries : List (α × β)) : Merges entries (ofList entries) := by
  induction entries using List.reverseRecOn with
  | nil => exact ⟨rfl, .nil, fun _ => rfl⟩
  | append_singleton entries e ih =>
    rw [ofList, List.foldl_append]
    exact ih.concat e.1 e.2

theorem lookup_eq_none {xs : List (α × β)} {k : α} (h : k ∉ xs.map Prod.fst) :
    xs.lookup k = none := by
  refine List.lookup_eq_none_iff.2 fun e he => ?_
  have hne : k ≠ e.1 := fun hk => h (hk ▸ List.mem_map_of_mem he)
  simpa using hne

theorem Merges.lookup_of_last {front back kept : List (α × β)} {k : α} {v : β}
    (h : Merges (front ++ (k, v) :: back) kept) (hk : k ∉ back.map Prod.fst) :
    kept.lookup k = some v := by
  have hback : back.reverse.lookup k = none := by
    refine lookup_eq_none ?_
    rwa [List.map_reverse, List.mem_reverse]
  rw [h.lookup, List.reverse_append, List.reverse_cons, List.lookup_append, List.lookup_append,
    hback, Option.none_or, List.lookup_cons_self, Option.some_or]

/-- Two lists are the same if they have the same keys, each of them once, with the same values. -/
theorem eq_of_lookup_eq {xs ys : List (α × β)} (hkeys : ys.map Prod.fst = xs.map Prod.fst)
    (hnodup : (xs.map Prod.fst).Nodup) (h : ∀ k, xs.lookup k = ys.lookup k) : xs = ys := by
  induction xs generalizing ys with
  | nil => exact (List.map_eq_nil_iff.1 hkeys).symm
  | cons x xs ih =>
    obtain ⟨⟨k, w⟩, ys, rfl, rfl, hrest⟩ := List.map_eq_cons_iff.1 hkeys
    obtain ⟨hk, hnodup⟩ := List.nodup_cons.1 hnodup
    have hvalue := h x.1
    rw [List.lookup_cons_self, List.lookup_cons_self, Option.some.injEq] at hvalue
    rw [ih hrest hnodup fun k => ?_, ← hvalue]
    by_cases hkx : k = x.1
    · rw [hkx, lookup_eq_none hk, lookup_eq_none (hrest ▸ hk)]
    · have hcons := h k
      rwa [List.lookup_cons, List.lookup_cons, beq_false_of_ne hkx] at hcons

/-- There is one such list only. -/
theorem merges_iff {entries kept : List (α × β)} : Merges entries kept ↔ kept = ofList entries := by
  have hlist := merges_ofList entries
  constructor
  · intro h
    refine eq_of_lookup_eq (hlist.keys.trans h.keys.symm) h.once fun k => ?_
    rw [h.lookup, hlist.lookup]
  · rintro rfl
    exact hlist

end Assoc

namespace Value

theorem get_object (i : Identity) {entries : List (String × Value)} {key : String} {v : Value}
    (h : entries.lookup key = some v) : (object i entries).get key = .ok v := by
  rw [get, own, h]

end Value

end ScriptFold
