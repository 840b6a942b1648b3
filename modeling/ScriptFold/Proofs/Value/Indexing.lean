import Mathlib.Data.List.Forall2
import ScriptFold.Proofs.Number.Digits
import ScriptFold.Proofs.Text.Units
import ScriptFold.Value.Property

/-!
Reading arrays and texts by place.

A key counts a place exactly if it is written as natural numbers are. There the item stands, or the
unit of a text if it is a character by itself. A key that is written otherwise says nothing of what
the value holds, except for its length.
-/

namespace ScriptFold.Value

/-! ## Places -/

/-- A key counts a place exactly if it is the written number of the place. -/
theorem arrayIndex?_eq_some_iff {key : String} {i : Nat} :
    arrayIndex? key = some i ↔ key = toString i ∧ i < 2 ^ 32 - 1 := by
  have hsize : UInt32.size - 1 = 2 ^ 32 - 1 := rfl
  have hwritten : key = toString i ↔ Nat.toDigits 10 i = key.toList := by
    rw [Nat.toString_eq_ofList_toDigits, ← String.toList_inj, String.toList_ofList, eq_comm]
  rw [hwritten, Number.toDigits_eq_iff]
  unfold arrayIndex?
  simp only [hsize]
  split
  · rename_i hnot
    refine iff_of_false nofun ?_
    rintro ⟨⟨hne, hdigits, hzero, -⟩, -⟩
    rcases hnot with hnil | hother | ⟨hhead, hlength⟩
    · exact hne hnil
    · rw [List.all_eq_true.2 hdigits] at hother
      cases hother
    · exact hlength (hzero hhead)
  · rename_i hplain
    simp only [not_or, not_and, Decidable.not_not, Bool.not_eq_true', Bool.not_eq_false] at hplain
    obtain ⟨hne, hall, hzero⟩ := hplain
    have hdigits : AllDigits key.toList := List.all_eq_true.1 hall
    split
    · rename_i hlt
      constructor
      · rintro ⟨⟩
        exact ⟨⟨hne, hdigits, hzero, rfl⟩, hlt⟩
      · rintro ⟨⟨-, -, -, rfl⟩, -⟩
        rfl
    · rename_i hlarge
      refine iff_of_false nofun ?_
      rintro ⟨⟨-, -, -, rfl⟩, hlt⟩
      exact hlarge hlt

/-- The key is the written number of one of the first `count` places. -/
def IsPlace (count : Nat) (key : String) : Prop := ∃ i < count, i < 2 ^ 32 - 1 ∧ key = toString i

/-- A number that is written otherwise: with zeros in front, with a sign or with a fraction. -/
def Miswritten (cs : List Char) : Prop :=
  (cs.head? = some '0' ∧ 1 < cs.length) ∨ '+' ∈ cs ∨ '-' ∈ cs ∨ '.' ∈ cs

instance : DecidablePred Miswritten := fun cs => inferInstanceAs <| Decidable <|
  (cs.head? = some '0' ∧ 1 < cs.length) ∨ '+' ∈ cs ∨ '-' ∈ cs ∨ '.' ∈ cs

theorem Miswritten.not_isPlace {key : String} (h : Miswritten key.toList) (count : Nat) :
    ¬ IsPlace count key := by
  rintro ⟨i, -, -, rfl⟩
  rw [Nat.toString_eq_ofList_toDigits, String.toList_ofList] at h
  obtain ⟨-, hdigits, hzero, -⟩ := Number.toDigits_eq_iff.1 (rfl : Nat.toDigits 10 i = _)
  rcases h with ⟨hhead, hlength⟩ | h | h | h
  · exact absurd (hzero hhead) (Nat.ne_of_gt hlength)
  all_goals exact absurd (hdigits _ h) (by decide)

theorem Miswritten.not_mem_members {key : String} (h : Miswritten key.toList) (p : Prototype) :
    key ∉ p.members := by
  have hnames : ∀ name ∈ p.members, ¬ Miswritten name.toList := by
    cases p <;> decide +kernel
  exact fun hkey => hnames key hkey h

/-! ## Values with places -/

/-- A value with `count` places: what is read at a place, the length, and what all other keys
give. -/
structure Indexed (v : Value) (count : Nat) (p : Prototype)
    (Item : Nat → Except ReadError Value → Prop) : Prop where
  item : ∀ i < count, i < 2 ^ 32 - 1 → Item i (v.get (toString i))
  length : v.get "length" = .ok (number (Float.ofNat count))
  inherited : ∀ key, key ≠ "length" → ¬ IsPlace count key → key ∈ p.members →
    v.get key = .error (.inherited key p)
  inheritedByAll : ∀ key, key ≠ "length" → ¬ IsPlace count key → key ∉ p.members →
    key ∈ Prototype.ofObjects.members → v.get key = .error (.inherited key .ofObjects)
  missing : ∀ key, key ≠ "length" → ¬ IsPlace count key → key ∉ p.members →
    key ∉ Prototype.ofObjects.members → v.get key = .ok undefined

/-- What a text gives at a place: the text of the unit there, or a fault if the unit is half of a
pair. -/
inductive UnitRead (s : String) (i : Nat) : Except ReadError Value → Prop
  | char {u : UInt16} {c : Char} (hu : (Text.units s)[i]? = some u)
    (hsingle : Text.isSurrogate u = false) (hc : Text.unitsOfChar c = [u]) :
    UnitRead s i (.ok (string (String.singleton c)))
  | half {u : UInt16} (hu : (Text.units s)[i]? = some u) (h : Text.isSurrogate u = true) :
    UnitRead s i (.error (.loneSurrogate i))

variable {v w : Value} {key : String} {p : Prototype}

theorem get_of_own_some (h : v.own key = .ok (some w)) : v.get key = .ok w := by
  rw [get, h]

theorem get_of_own_none (h : v.own key = .ok none) (hv : v.prototypes = [p, .ofObjects]) :
    (key ∈ p.members → v.get key = .error (.inherited key p)) ∧
    (key ∉ p.members → key ∈ Prototype.ofObjects.members →
      v.get key = .error (.inherited key .ofObjects)) ∧
    (key ∉ p.members → key ∉ Prototype.ofObjects.members → v.get key = .ok undefined) := by
  unfold get
  rw [h, hv]
  refine ⟨fun hp => ?_, fun hp hall => ?_, fun hp hall => ?_⟩
  · simp [List.find?, hp]
  · simp [List.find?, hp, hall]
  · simp [List.find?, hp, hall]

/-- It is enough to know what the value itself holds. -/
theorem Indexed.of_own {count : Nat} {Item : Nat → Except ReadError Value → Prop}
    (hv : v.prototypes = [p, .ofObjects])
    (hitem : ∀ i < count, i < 2 ^ 32 - 1 → Item i (v.get (toString i)))
    (hlength : v.own "length" = .ok (some (number (Float.ofNat count))))
    (hother : ∀ key, key ≠ "length" → ¬ IsPlace count key → v.own key = .ok none) :
    Indexed v count p Item where
  item := hitem
  length := get_of_own_some hlength
  inherited key hkey hplace := (get_of_own_none (hother key hkey hplace) hv).1
  inheritedByAll key hkey hplace := (get_of_own_none (hother key hkey hplace) hv).2.1
  missing key hkey hplace := (get_of_own_none (hother key hkey hplace) hv).2.2

theorem toString_ne_length (i : Nat) : toString i ≠ "length" := by
  intro h
  have hdigits := Number.allDigits_toDigits i
  rw [Nat.toString_eq_ofList_toDigits, ← String.toList_inj, String.toList_ofList] at h
  rw [h] at hdigits
  exact absurd (hdigits 'l' (by decide)) (by decide)

/-! ## Arrays -/

theorem own_array (identity : Identity) (items : List Value) (hkey : key ≠ "length") :
    (array identity items).own key = .ok ((arrayIndex? key).bind fun index => items[index]?) :=
  if_neg hkey

theorem indexed_array (identity : Identity) (items : List Value) :
    Indexed (array identity items) items.length .ofArrays
      fun i r => ∃ v, items[i]? = some v ∧ r = .ok v := by
  refine .of_own rfl (fun i hi hlt => ⟨items[i], List.getElem?_eq_getElem hi, ?_⟩) rfl ?_
  · refine get_of_own_some ?_
    rw [own_array _ _ (toString_ne_length i), arrayIndex?_eq_some_iff.2 ⟨rfl, hlt⟩,
      Option.bind_some, List.getElem?_eq_getElem hi]
  · intro key hkey hplace
    rw [own_array _ _ hkey]
    cases hindex : arrayIndex? key with
    | none => rfl
    | some i =>
      obtain ⟨hwritten, hlt⟩ := arrayIndex?_eq_some_iff.1 hindex
      have hle : items.length ≤ i := Nat.le_of_not_lt fun hi => hplace ⟨i, hi, hlt, hwritten⟩
      rw [Option.bind_some, List.getElem?_eq_none hle]

theorem get_array_ne_loneSurrogate (identity : Identity) (items : List Value) (key : String)
    (index : Nat) : (array identity items).get key ≠ .error (.loneSurrogate index) := by
  have hown : ∃ w?, (array identity items).own key = .ok w? := by
    by_cases hkey : key = "length"
    · exact ⟨_, by rw [own, if_pos hkey]⟩
    · exact ⟨_, own_array identity items hkey⟩
  obtain ⟨w?, hown⟩ := hown
  rw [get, hown]
  cases w? with
  | some w => exact nofun
  | none =>
    dsimp only
    split <;> exact nofun

/-! ## Texts -/

theorem own_string (s : String) (hkey : key ≠ "length") :
    (string s).own key =
      match arrayIndex? key with
      | some index => unitAt s index
      | none => .ok none :=
  if_neg hkey

theorem unitRead_get {s : String} {i : Nat} (hi : i < (Text.units s).length)
    (hlt : i < 2 ^ 32 - 1) : UnitRead s i ((string s).get (toString i)) := by
  have hunit : (Text.units s)[i]? = some (Text.units s)[i] := List.getElem?_eq_getElem hi
  have hown : (string s).own (toString i) = unitAt s i := by
    rw [own_string s (toString_ne_length i), arrayIndex?_eq_some_iff.2 ⟨rfl, hlt⟩]
  rcases Text.ofUnit?_cases (Text.units s)[i] with ⟨hhalf, hnone⟩ | ⟨c, hsingle, hc, hsome⟩
  · have herror : (string s).own (toString i) = .error (.loneSurrogate i) := by
      rw [hown, unitAt, hunit]
      simp only [hnone]
    rw [get, herror]
    exact .half hunit hhalf
  · rw [get_of_own_some (w := string (String.singleton c))]
    · exact .char hunit hsingle hc
    · rw [hown, unitAt, hunit]
      simp only [hsome]

theorem indexed_string (s : String) :
    Indexed (string s) (Text.units s).length .ofStrings (UnitRead s) := by
  refine .of_own rfl (fun i hi hlt => unitRead_get hi hlt) rfl fun key hkey hplace => ?_
  rw [own_string s hkey]
  cases hindex : arrayIndex? key with
  | none => rfl
  | some i =>
    obtain ⟨hwritten, hlt⟩ := arrayIndex?_eq_some_iff.1 hindex
    have hle : (Text.units s).length ≤ i :=
      Nat.le_of_not_lt fun hi => hplace ⟨i, hi, hlt, hwritten⟩
    simp only [unitAt, List.getElem?_eq_none hle]

/-- Where no unit is half of a pair, each place of a text gives the character there. -/
theorem get_of_no_surrogate {s : String}
    (hsingle : ∀ u ∈ Text.units s, Text.isSurrogate u = false) {i : Nat} {c : Char}
    (hc : s.toList[i]? = some c) (hlt : i < 2 ^ 32 - 1) :
    (string s).get (toString i) = .ok (string (String.singleton c)) := by
  have hunits := List.forall₂_iff_get.1 (Text.forall₂_of_no_surrogate hsingle)
  obtain ⟨hi, rfl⟩ := List.getElem?_eq_some_iff.1 hc
  have hi' : i < (Text.units s).length := hunits.1 ▸ hi
  have hunit : Text.unitsOfChar s.toList[i] = [(Text.units s)[i]] := hunits.2 i hi hi'
  have hread := unitRead_get hi' hlt
  generalize (string s).get (toString i) = r at hread ⊢
  cases hread with
  | @char u c hu _ hd =>
    rw [List.getElem?_eq_getElem hi', Option.some.injEq] at hu
    have hcode : Text.unitsOfChar c ++ [] = Text.unitsOfChar s.toList[i] ++ [] := by
      rw [hd, hunit, hu]
    rw [(Text.unitsOfChar_append_inj hcode).1]
  | half hu hhalf =>
    rw [hsingle _ (List.mem_of_getElem? hu)] at hhalf
    cases hhalf

/-- A text whose places can all be read is what is read there, one after another. -/
theorem join_of_reads {s : String} {vs : List Value} (hshort : (Text.units s).length < 2 ^ 32 - 1)
    (h : (List.range (Text.units s).length).map (fun i => (string s).get (toString i)) =
      vs.map .ok) :
    ∃ texts, vs = texts.map string ∧ String.join texts = s := by
  have hsingle : ∀ u ∈ Text.units s, Text.isSurrogate u = false := by
    intro u hu
    obtain ⟨i, hi, rfl⟩ := List.mem_iff_getElem.1 hu
    have hmem : (string s).get (toString i) ∈ vs.map .ok := by
      rw [← h]
      exact List.mem_map_of_mem (List.mem_range.2 hi)
    obtain ⟨v, -, hv⟩ := List.mem_map.1 hmem
    have hread := unitRead_get hi (Nat.lt_trans hi hshort)
    rw [← hv] at hread
    cases hread with
    | char hu hsingle _ =>
      rw [List.getElem?_eq_getElem hi] at hu
      rwa [Option.some.inj hu]
  have hlength : (Text.units s).length = s.toList.length :=
    (Text.forall₂_of_no_surrogate hsingle).length_eq.symm
  refine ⟨s.toList.map String.singleton, ?_, ?_⟩
  · have hok : Function.Injective (Except.ok : Value → Except ReadError Value) :=
      fun _ _ => Except.ok.inj
    refine List.map_injective_iff.2 hok ?_
    rw [← h]
    refine List.ext_getElem (by simpa using hlength) fun i hi hi' => ?_
    have hc : i < s.toList.length := by simpa using hi'
    rw [List.getElem_map, List.getElem_range,
      get_of_no_surrogate hsingle (List.getElem?_eq_getElem hc) (by omega)]
    simp
  · rw [← String.toList_inj, String.toList_join, List.flatMap_map]
    simp

/-- **Reading by place agrees with the length.** The places of a text are those of its code units:
at a place that is written as a number below `2 ^ 32 - 1` stands the text of the unit there, or a
fault if the unit is half of a pair. The places of an array are those of its items. The length is
the number of places. All other keys are undefined, unless values of the kind inherit a method of
that name, which is a fault.

So a text of fewer than `2 ^ 32 - 1` units whose places can all be read is what is read there, one
after another; and a number that is written with zeros in front, with a sign or with a fraction is
undefined for all texts and arrays. -/
theorem reading_by_place :
    (∀ s, Indexed (string s) (Text.units s).length .ofStrings (UnitRead s)) ∧
    (∀ identity items,
      Indexed (array identity items) items.length .ofArrays
        (fun i r => ∃ v, items[i]? = some v ∧ r = .ok v) ∧
      ∀ key index, (array identity items).get key ≠ .error (.loneSurrogate index)) ∧
    (∀ s vs, (Text.units s).length < 2 ^ 32 - 1 →
      (List.range (Text.units s).length).map (fun i => (string s).get (toString i)) =
        vs.map .ok →
      ∃ texts, vs = texts.map string ∧ String.join texts = s) ∧
    ∀ key : String, Miswritten key.toList →
      (∀ s, (string s).get key = .ok undefined) ∧
      ∀ identity items, (array identity items).get key = .ok undefined := by
  refine ⟨indexed_string, fun identity items => ⟨indexed_array identity items,
    get_array_ne_loneSurrogate identity items⟩, fun s vs => join_of_reads, fun key hkey => ?_⟩
  have hlength : key ≠ "length" := by
    rintro rfl
    exact absurd hkey (by decide)
  exact ⟨fun s => (indexed_string s).missing key hlength (hkey.not_isPlace _)
      (hkey.not_mem_members _) (hkey.not_mem_members _),
    fun identity items => (indexed_array identity items).missing key hlength (hkey.not_isPlace _)
      (hkey.not_mem_members _) (hkey.not_mem_members _)⟩

theorem reading_by_place_pair :
    (string "a😀").get "1" = .error (.loneSurrogate 1) ∧
    (string "a😀").get "slice" = .error (.inherited "slice" .ofStrings) ∧
    (string "a😀").get "03" = .ok undefined ∧
    ∃ texts, [string "a", string "é"] = texts.map string ∧ String.join texts = "aé" := by
  obtain ⟨htexts, -, hjoin, hother⟩ := reading_by_place
  have hunits : Text.units "a😀" = [97, 55357, 56832] := by decide +kernel
  have htext := htexts "a😀"
  rw [hunits] at htext
  refine ⟨?_, ?_, (hother "03" (by decide +kernel)).1 _, hjoin "aé" _ (by decide +kernel) rfl⟩
  · have hread : UnitRead "a😀" 1 ((string "a😀").get "1") := htext.item 1 (by decide) (by decide)
    generalize (string "a😀").get "1" = r at hread ⊢
    cases hread with
    | char hu hsingle =>
      rw [hunits] at hu
      cases hu
      exact absurd hsingle (by decide)
    | half => rfl
  · refine htext.inherited "slice" (by decide) ?_ (by decide +kernel)
    rintro ⟨i, hi, -, h⟩
    have hplaces : ∀ i < 3, "slice" ≠ toString i := by decide +kernel
    exact hplaces i hi h

end ScriptFold.Value
