import ScriptFold.Proofs.Number.Integers
import ScriptFold.Proofs.Value.Entries

/-!
The values of JSON values.

A test takes a JSON value for true exactly if it takes its value for true. An object that holds each
key once has a value that holds the values of the same fields; where there is no field, and in all
that is no object, a key reads as undefined unless it has a meaning for values of the kind.
-/

namespace ScriptFold

/-! ## Keys that come once -/

namespace Json

/-- Every object in the JSON value holds each key once. -/
inductive UniqueKeys : Json → Prop
  | null : UniqueKeys null
  | bool (b : Bool) : UniqueKeys (bool b)
  | int (n : Int) : UniqueKeys (int n)
  | float (x : Float) : UniqueKeys (float x)
  | string (s : String) : UniqueKeys (string s)
  | array {items : List Json} (h : ∀ j ∈ items, UniqueKeys j) : UniqueKeys (array items)
  | object {entries : List (String × Json)} (hkeys : (entries.map Prod.fst).Nodup)
    (h : ∀ e ∈ entries, UniqueKeys e.2) : UniqueKeys (object entries)

theorem UniqueKeys.nodup {entries : List (String × Json)} (h : (Json.object entries).UniqueKeys) :
    (entries.map Prod.fst).Nodup := by
  cases h with
  | object hkeys _ => exact hkeys

theorem UniqueKeys.field? {j field : Json} {key : String} (h : j.UniqueKeys)
    (hfield : j.field? key = some field) : field.UniqueKeys := by
  cases h with
  | object _ h =>
    obtain ⟨front, back, rfl, -⟩ := List.lookup_eq_some_iff.1 hfield
    exact h (key, field) (by simp)
  | _ => cases hfield

end Json

namespace Value

/-! ## Tests -/

/-- **A test takes a JSON value for true exactly if it takes its value for true.** -/
theorem isTruthy_ofJson (i : Identity) (j : Json) : (ofJson i j).isTruthy = j.isTruthy := by
  cases j with
  | int n =>
    have h := Number.ofInt_isZero_or_isNaN n
    rw [ofJson, isTruthy, h, Json.isTruthy, decide_not]
  | _ => rfl

/-! ## Fields -/

def ofJson? (i : Identity) (j? : Option Json) : Value := j?.elim .undefined (ofJson i)

theorem isTruthy_ofJson? (i : Identity) (j? : Option Json) :
    (ofJson? i j?).isTruthy = j?.any Json.isTruthy := by
  cases j? with
  | none => rfl
  | some j => exact isTruthy_ofJson i j

theorem keys_ofJsonEntries (i : Identity) (n : Nat) (entries : List (String × Json)) :
    (ofJsonEntries i n entries).map Prod.fst = entries.map Prod.fst := by
  induction entries generalizing n with
  | nil => rfl
  | cons e rest ih => rw [ofJsonEntries, List.map_cons, List.map_cons, ih]

theorem lookup_ofJsonEntries (i : Identity) (n : Nat) (entries : List (String × Json))
    (key : String) :
    ∃ i', (ofJsonEntries i n entries).lookup key = (entries.lookup key).map (ofJson i') := by
  induction entries generalizing n with
  | nil => exact ⟨i, rfl⟩
  | cons e rest ih =>
    rw [ofJsonEntries, List.lookup_cons, List.lookup_cons]
    split
    · exact ⟨i.part n, rfl⟩
    · exact ih (n + 1)

/-- A key that means nothing to a value but for what an object holds: it is neither the length nor a
place of an array or text, and no value inherits it. -/
structure PlainKey (key : String) : Prop where
  length : key ≠ "length"
  index : arrayIndex? key = none
  inherited : ∀ p : Prototype, p.members.contains key = false

theorem get_of_plainKey {v : Value} {key : String} (hkey : PlainKey key)
    (h : v.own key = .ok none) : v.get key = .ok .undefined := by
  have hnone : v.prototypes.find? (fun p => p.members.contains key) = none :=
    List.find?_eq_none.2 fun p _ => by rw [hkey.inherited p]; decide
  rw [get, h]
  simp only [hnone]

/-- A plain key of the value of a JSON value reads as the value of the field. -/
theorem get_ofJson (i : Identity) {j : Json} {key : String} (hkey : PlainKey key)
    (hunique : j.UniqueKeys) (hj : (ofJson i j).isNullish = false) :
    ∃ i', (ofJson i j).get key = .ok (ofJson? i' (j.field? key)) := by
  cases j with
  | null => cases hj
  | object entries =>
    obtain ⟨i', hlookup⟩ := lookup_ofJsonEntries i 0 entries key
    refine ⟨i', ?_⟩
    rw [ofJson, ofEntries, Assoc.ofList_of_nodup (by rw [keys_ofJsonEntries]; exact hunique.nodup),
      Json.field?]
    cases hfield : entries.lookup key with
    | none =>
      rw [hfield] at hlookup
      exact get_of_plainKey hkey (congrArg Except.ok hlookup)
    | some field =>
      rw [hfield] at hlookup
      exact get_object i hlookup
  | string s => exact ⟨i, get_of_plainKey hkey (by rw [ofJson, own, if_neg hkey.length, hkey.index])⟩
  | array items =>
    exact ⟨i, get_of_plainKey hkey (by rw [ofJson, own, if_neg hkey.length, hkey.index]; rfl)⟩
  | bool b => exact ⟨i, get_of_plainKey (v := .bool b) hkey rfl⟩
  | int n => exact ⟨i, get_of_plainKey (v := .number (.ofInt n)) hkey rfl⟩
  | float x => exact ⟨i, get_of_plainKey (v := .number x) hkey rfl⟩

end Value

end ScriptFold
