import Mathlib.Data.List.Forall2
import Mathlib.Order.Defs.Unbundled
import ScriptFold.Text.Units

/-!
The code units of a text determine it.

The first unit of a character tells whether the character is a pair, and the units give its code.
So different texts have different units, and the order by units tells any two texts apart.
-/

namespace ScriptFold.Text

/-! ## Units of characters -/

/-- No character is half of a pair. -/
theorem toNat_bounds (c : Char) :
    c.toNat < 0xD800 ∨ 0xDFFF < c.toNat ∧ c.toNat < 0x110000 := c.valid

/-- The codes of the units of a character. -/
theorem map_toNat_unitsOfChar (c : Char) : (unitsOfChar c).map UInt16.toNat =
    if c.toNat < 0x10000 then [c.toNat]
    else [0xD800 + (c.toNat - 0x10000) / 0x400, 0xDC00 + (c.toNat - 0x10000) % 0x400] := by
  have hsize : UInt16.size = 0x10000 := rfl
  have hc := toNat_bounds c
  unfold unitsOfChar
  split
  · rename_i h
    rw [List.map_singleton, Nat.toUInt16, UInt16.toNat_ofNat_of_lt' h]
  · have hhigh : 0xD800 + (c.toNat - 0x10000) / 0x400 < UInt16.size := by omega
    have hlow : 0xDC00 + (c.toNat - 0x10000) % 0x400 < UInt16.size := by omega
    simp only [List.map_cons, List.map_nil, Nat.toUInt16, UInt16.toNat_ofNat_of_lt' hhigh,
      UInt16.toNat_ofNat_of_lt' hlow]

/-- A text is cut after its first character in one way only. -/
theorem unitsOfChar_append_inj {c d : Char} {us vs : List UInt16}
    (h : unitsOfChar c ++ us = unitsOfChar d ++ vs) : c = d ∧ us = vs := by
  have hcodes := congrArg (List.map UInt16.toNat) h
  rw [List.map_append, List.map_append, map_toNat_unitsOfChar, map_toNat_unitsOfChar] at hcodes
  have hc := toNat_bounds c
  have hd := toNat_bounds d
  have hcd : c.toNat = d.toNat := by
    split at hcodes <;> split at hcodes <;>
      simp only [List.cons_append, List.nil_append, List.cons.injEq] at hcodes <;> omega
  obtain rfl := Char.toNat_inj.1 hcd
  exact ⟨rfl, List.append_cancel_left h⟩

/-! ## Halves of pairs -/

theorem isSurrogate_iff {u : UInt16} :
    isSurrogate u = true ↔ 0xD800 ≤ u.toNat ∧ u.toNat < 0xE000 := by
  rw [isSurrogate, Bool.and_eq_true, decide_eq_true_iff, decide_eq_true_iff,
    UInt16.le_iff_toNat_le, UInt16.lt_iff_toNat_lt]
  exact Iff.rfl

theorem unitsOfChar_cases (c : Char) :
    (∃ u, unitsOfChar c = [u] ∧ isSurrogate u = false) ∨
      ∃ u v, unitsOfChar c = [u, v] ∧ isSurrogate u = true ∧ isSurrogate v = true := by
  have hcodes := map_toNat_unitsOfChar c
  have hc := toNat_bounds c
  split at hcodes
  · obtain ⟨u, hunits, hu⟩ := List.map_eq_singleton_iff.1 hcodes
    refine .inl ⟨u, hunits, ?_⟩
    rw [Bool.eq_false_iff, Ne, isSurrogate_iff]
    omega
  · obtain ⟨u, us, hunits, hu, hus⟩ := List.map_eq_cons_iff.1 hcodes
    obtain ⟨v, rfl, hv⟩ := List.map_eq_singleton_iff.1 hus
    refine .inr ⟨u, v, hunits, ?_, ?_⟩ <;> rw [isSurrogate_iff] <;> omega

theorem ofUnit?_cases (u : UInt16) : (isSurrogate u = true ∧ ofUnit? u = none) ∨
    ∃ c, isSurrogate u = false ∧ unitsOfChar c = [u] ∧ ofUnit? u = some (String.singleton c) := by
  cases h : isSurrogate u with
  | true => exact .inl ⟨rfl, by rw [ofUnit?, if_pos h]⟩
  | false =>
    have hlt : u.toNat < 0x10000 := u.toNat_lt
    have hvalid : u.toNat.isValidChar := by
      rw [Bool.eq_false_iff, Ne, isSurrogate_iff] at h
      unfold Nat.isValidChar
      omega
    have hcode : (Char.ofNat u.toNat).toNat = u.toNat := by
      rw [Char.ofNat, dif_pos hvalid]
      rfl
    refine .inr ⟨Char.ofNat u.toNat, rfl, ?_, by rw [ofUnit?, h]; rfl⟩
    rw [unitsOfChar, hcode, if_pos hlt, Nat.toUInt16, UInt16.ofNat_toNat]

/-- Where no unit is half of a pair, the units are the characters one by one. -/
theorem forall₂_of_no_surrogate {cs : List Char}
    (h : ∀ u ∈ cs.flatMap unitsOfChar, isSurrogate u = false) :
    List.Forall₂ (fun c u => unitsOfChar c = [u]) cs (cs.flatMap unitsOfChar) := by
  induction cs with
  | nil => exact .nil
  | cons c cs ih =>
    rw [List.flatMap_cons] at h ⊢
    obtain ⟨hc, hcs⟩ := List.forall_mem_append.1 h
    rcases unitsOfChar_cases c with ⟨u, hu, -⟩ | ⟨u, v, huv, hhalf, -⟩
    · rw [hu, List.singleton_append]
      exact .cons hu (ih hcs)
    · have hwhole := hc u (by rw [huv]; exact List.mem_cons_self)
      rw [hhalf] at hwhole
      cases hwhole

/-! ## Texts -/

theorem flatMap_unitsOfChar_inj {cs ds : List Char}
    (h : cs.flatMap unitsOfChar = ds.flatMap unitsOfChar) : cs = ds := by
  induction cs generalizing ds with
  | nil =>
    cases ds with
    | nil => rfl
    | cons d ds =>
      rw [List.flatMap_cons] at h
      exact absurd (List.append_eq_nil_iff.1 h.symm).1 (unitsOfChar_ne_nil d)
  | cons c cs ih =>
    cases ds with
    | nil =>
      rw [List.flatMap_cons] at h
      exact absurd (List.append_eq_nil_iff.1 h).1 (unitsOfChar_ne_nil c)
    | cons d ds =>
      obtain ⟨rfl, hrest⟩ := unitsOfChar_append_inj h
      rw [ih hrest]

theorem units_injective : Function.Injective units := fun _ _ h =>
  String.toList_injective (flatMap_unitsOfChar_inj h)

theorem unitsBefore_iff {s t : String} : unitsBefore s t = true ↔ units s < units t :=
  decide_eq_true_iff

/-- The order by units is a strict total order of texts. -/
theorem isStrictTotalOrder_unitsBefore :
    IsStrictTotalOrder String fun s t => unitsBefore s t = true where
  irrefl s h := List.lt_irrefl (units s) (unitsBefore_iff.1 h)
  trans s t u hst htu := unitsBefore_iff.2 (List.lt_trans (unitsBefore_iff.1 hst)
    (unitsBefore_iff.1 htu))
  trichotomous s t hst hts := by
    rw [unitsBefore_iff] at hst hts
    exact units_injective (List.le_antisymm hts hst)

end ScriptFold.Text
