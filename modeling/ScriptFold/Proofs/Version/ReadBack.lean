import ScriptFold.Proofs.Version.Texts

/-!
Reading back the text of a version.

The texts that write a version are read as it, and the text of the version is one of them. Ranges
see only the version, so they cannot tell these texts apart: signs and blanks before the numbers,
zeros in front of a number, build metadata and blanks after the version do not matter.
-/

namespace ScriptFold.Version

variable {text : String} {v : Version}

/-- Exactly the texts that write a version are read as it. -/
theorem ofText?_eq_some_iff : ofText? text = some v ↔ (Pattern.full v).WrittenAs text.toList := by
  rw [← Pattern.ofText?_eq_some_iff]
  unfold ofText?
  constructor
  · intro h
    split at h
    · rename_i w hw
      cases h
      exact hw
    · cases h
  · intro h
    rw [h]

/-- The text of a version that was read from a text is read as the version. -/
theorem ofText?_text_of_some (h : ofText? text = some v) : ofText? v.text = some v := by
  have hwritten := ofText?_eq_some_iff.1 h
  exact ofText?_eq_some_iff.2 hwritten.wellFormed.writtenAs_text

theorem satisfies_congr {other : String} (h : ofText? other = ofText? text) (o : Overflow)
    (range : String) : satisfies o other range = satisfies o text range := by
  unfold satisfies
  rw [h]

/-- **One text for all texts of a version.** Let a text be read as a version. The text of the version
is read as the same version, and two texts that are read as versions which compare as equal have
versions with the same text. For every range, and whatever becomes of sums that do not fit 64 bits,
the answer is the same for the text, for the text of its version and for every other text that writes
the version, with other signs, blanks, zeros and build metadata. -/
theorem text_of_ofText? (h : ofText? text = some v) :
    ofText? v.text = some v ∧
    (∀ (other : String) (w : Version), ofText? other = some w → v.compare w = .eq →
      w.text = v.text) ∧
    (∀ (o : Overflow) (range : String), satisfies o v.text range = satisfies o text range) ∧
    ∀ other : String, (Pattern.full v).WrittenAs other.toList → ofText? other = some v ∧
      ∀ (o : Overflow) (range : String), satisfies o other range = satisfies o text range := by
  have hsame {other : String} (hother : ofText? other = some v) (o : Overflow) (range : String) :
      satisfies o other range = satisfies o text range :=
    satisfies_congr (hother.trans h.symm) o range
  refine ⟨ofText?_text_of_some h, fun other w _ heq => ?_, hsame (ofText?_text_of_some h),
    fun other hother => ?_⟩
  · rw [compare_eq_eq_iff.1 heq]
  · have hread := ofText?_eq_some_iff.2 hother
    exact ⟨hread, hsame hread⟩

/-- The text ` = v01.2.3-a-b.04+x.y ` is read as the version whose text is `1.2.3-a-b.4`. -/
theorem text_of_ofText?_signs :
    let text : String := " = v01.2.3-a-b.04+x.y "
    let v : Version := ⟨1, 2, 3, [.alpha "a-b", .numeric 4]⟩
    ofText? text = some v ∧ v.text = "1.2.3-a-b.4" ∧ ofText? "1.2.3-a-b.4" = some v ∧
      satisfies .stops text "<1.2.3" = satisfies .stops "1.2.3-a-b.4" "<1.2.3" := by
  intro text v
  have hread : ofText? text = some v := by decide +kernel
  have htext : v.text = "1.2.3-a-b.4" := by decide +kernel
  obtain ⟨hback, -, hranges, -⟩ := text_of_ofText? hread
  have hrange := hranges .stops "<1.2.3"
  simp only [htext] at hback hrange
  exact ⟨hread, htext, hback, hrange.symm⟩

end ScriptFold.Version
