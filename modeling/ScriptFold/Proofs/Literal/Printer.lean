import ScriptFold.Json.Printer
import ScriptFold.Proofs.Literal.Compact
import ScriptFold.Proofs.Literal.Strings
import ScriptFold.Proofs.Number.ReadBack

/-!
A compact printer.

The printer that writes shortest decimals is one of those that literals can be made with.
-/

namespace ScriptFold.Json

open Number

theorem escapes_escapedChar (c : Char) : Escapes c (escapedChar c) := by
  unfold escapedChar
  split
  · rename_i h; subst h; exact .quote
  split
  · rename_i h; subst h; exact .backslash
  split
  · rename_i h; subst h; exact .backspace
  split
  · rename_i h; subst h; exact .tab
  split
  · rename_i h; subst h; exact .lineFeed
  split
  · rename_i h; subst h; exact .formFeed
  split
  · rename_i h; subst h; exact .carriageReturn
  split
  · rename_i h
    exact .control (i := 0) (by decide) (digit_digitChar _ h) (by omega) (by omega)
  split
  · rename_i h
    exact .control (i := 1) (by decide) (digit_digitChar (c.toNat - 0x10) (by omega)) (by omega) h
  · rename_i hquote hback _ _ _ _ _ _ hcontrol
    exact .plain hquote hback (by omega)

theorem writesString_stringText (s : String) : WritesString s (String.ofList (stringText s)) := by
  refine ⟨s.toList.map escapedChar, ?_, ?_⟩
  · rw [List.forall₂_map_right_iff, List.forall₂_same]
    exact fun c _ => escapes_escapedChar c
  · rw [String.toList_ofList, stringText, List.flatMap_def]
    rfl

theorem writeItems_eq {items : List Json} {texts : List String}
    (h : List.Forall₂ (fun j text => compact j = .ok text) items texts) :
    writeItems items = (String.intercalate "," texts).toList := by
  induction h with
  | nil => rfl
  | cons htext hrest ih =>
    cases htext
    cases hrest with
    | nil => simp [writeItems, toText]
    | cons => rw [writeItems, ih]; simp [toText]

theorem writeEntries_eq {entries : List (String × Json)} {texts : List String}
    (h : List.Forall₂ (WritesEntry compact) entries texts) :
    writeEntries entries = (String.intercalate "," texts).toList := by
  induction h with
  | nil => rfl
  | @cons entry _ _ _ htext hrest ih =>
    obtain ⟨key, value⟩ := entry
    obtain ⟨_, _, ⟨⟩, ⟨⟩, rfl⟩ := htext
    cases hrest with
    | nil => simp [writeEntries, toText, write]
    | cons => rw [writeEntries, ih]; simp [toText, write]

/-- The text of a finite number is its sign and a numeral that reads as its size. -/
theorem floatText_eq {x : Float} (h : x.isFinite) :
    ∃ cs, (floatText x).toList = signText (isNegative x) ++ cs ∧
      IsNumeral cs ∧ readUnsigned cs = some (size x) := by
  have hfinite : x.toModel.unpack.isFinite = true := h
  cases hx : x.toModel.unpack with
  | notANumber =>
    rw [hx] at hfinite
    cases hfinite
  | infinity s =>
    rw [hx] at hfinite
    cases hfinite
  | zero s =>
    rw [eq_of_unpack hx]
    have hnumeral := (denotes_fraction (List.cons_ne_nil '0' []) (allDigits_zeros 1) (.inl rfl) rfl
      (allDigits_zeros 1)).numeral
    refine ⟨['0', '.', '0'], ?_, hnumeral, ?_⟩ <;> cases s <;> decide +kernel
  | finite s m e hm =>
    obtain ⟨c, q, hdenotes, -, hread⟩ := layout.denotes_shortest hx
    refine ⟨_, ?_, hdenotes.numeral, hread⟩
    rw [isNegative_of_finite hx]
    unfold floatText
    rw [hx]
    cases s <;> exact String.toList_ofList

theorem compact_isCompact : Compact compact where
  null := rfl
  bool b := by cases b <;> rfl
  int n _ := by rw [compact, toText, write, String.ofList_toList]
  float x h := by
    obtain ⟨cs, htext, hcs, hread⟩ := floatText_eq h
    refine ⟨isNegative x, cs, ?_, hcs, ?_⟩
    · rw [compact, toText, write, htext]
    · unfold readDecimal
      rw [readSign_numeral _ hcs]
      simp only [hread, Option.map_some]
      split
      · rename_i hx
        rw [neg_size hx]
      · rename_i hx
        rw [size, if_neg hx]
  string s := ⟨_, rfl, writesString_stringText s⟩
  array {items texts} h := by
    rw [compact, toText, write, writeItems_eq h]
    refine congrArg Except.ok (String.toList_inj.1 ?_)
    simp
  object {entries texts} h := by
    rw [compact, toText, write, writeEntries_eq h]
    refine congrArg Except.ok (String.toList_inj.1 ?_)
    simp

end ScriptFold.Json
