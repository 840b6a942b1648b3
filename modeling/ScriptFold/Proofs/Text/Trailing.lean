import Mathlib.Data.List.DropRight

/-!
Texts without one character at their end.

A folder is a root without slashes at its end, and the digits of a number are written without zeros
at their end. What is left is the front of the text that does not end with the character.
-/

namespace ScriptFold.Text

theorem getLast?_ne_iff {c : Char} {cs : List Char} :
    cs.getLast? ≠ some c ↔ cs.rdropWhile (· = c) = cs := by
  rw [List.rdropWhile_eq_self_iff]
  constructor
  · intro h hne hlast
    rw [List.getLast?_eq_getLast_of_ne_nil hne, of_decide_eq_true hlast] at h
    exact h rfl
  · intro h hlast
    obtain ⟨front, rfl⟩ := List.getLast?_eq_some_iff.1 hlast
    exact h (by simp) (by simp)

theorem rdropWhile_append_replicate (c : Char) (cs : List Char) (n : Nat) :
    (cs ++ List.replicate n c).rdropWhile (· = c) = cs.rdropWhile (· = c) := by
  induction n with
  | zero => rw [List.replicate_zero, List.append_nil]
  | succ n ih =>
    rw [List.replicate_succ', ← List.append_assoc, List.rdropWhile_concat_pos _ _ _ (by simp), ih]

/-- What is left is a front of the text that does not end with the character, and after it only the
character follows. -/
theorem rdropWhile_eq_iff {c : Char} {cs front : List Char} :
    cs.rdropWhile (· = c) = front ↔
      (∃ n, cs = front ++ List.replicate n c) ∧ front.getLast? ≠ some c := by
  constructor
  · rintro rfl
    have hend : cs.rtakeWhile (· = c) = List.replicate (cs.rtakeWhile (· = c)).length c :=
      List.eq_replicate_iff.2 ⟨rfl, fun d hd => by simpa using List.mem_rtakeWhile_imp hd⟩
    refine ⟨⟨(cs.rtakeWhile (· = c)).length, ?_⟩,
      getLast?_ne_iff.2 (List.rdropWhile_idempotent _ _)⟩
    rw [← hend, List.rdropWhile_append_rtakeWhile]
  · rintro ⟨⟨n, rfl⟩, hlast⟩
    rw [rdropWhile_append_replicate, getLast?_ne_iff.1 hlast]

end ScriptFold.Text
