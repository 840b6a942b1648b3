import ScriptFold.Proofs.Number.Comparison
import ScriptFold.Value.Comparison

/-!
Loose equality as a chain of conversions.

Two values are compared by converting one side at a time, by the first rule that applies, until no
rule does. Each conversion leaves a value of a kind that is converted less often, so there are at
most two. Whatever the order of conversions, both sides come to the same comparison; that is what
loose equality computes at once, and from this form its laws are read.
-/

namespace ScriptFold.Value

variable {a b c d : Value}

/-! ## Conversions -/

def isContainer : Value → Bool
  | array _ _ | object _ _ => true
  | _ => false

def isScalar : Value → Bool
  | bool _ | number _ | string _ => true
  | _ => false

/-- The conversion that a comparison of two values asks for first. Null and undefined ask for none;
a boolean is converted to its number, the left one of two first; and an array or object beside a
number or a text is converted to its text. -/
def convert? (a b : Value) : Option (Value × Value) :=
  if a.isNullish || b.isNullish then none
  else
    match a, b with
    | bool p, b => some (number (bool p).toNumber, b)
    | a, bool q => some (a, number (bool q).toNumber)
    | array i xs, number _ | array i xs, string _ => some ((array i xs).toPrimitive, b)
    | object i es, number _ | object i es, string _ => some ((object i es).toPrimitive, b)
    | number _, array i xs | string _, array i xs => some (a, (array i xs).toPrimitive)
    | number _, object i es | string _, object i es => some (a, (object i es).toPrimitive)
    | _, _ => none

/-- The result for two values that ask for no conversion. A number and a text are compared as
numbers. -/
def looseEqAsIs (a b : Value) : Bool :=
  if a.isNullish || b.isNullish then a.isNullish && b.isNullish
  else
    match a, b with
    | number _, string _ | string _, number _ => a.toNumber == b.toNumber
    | _, _ => a.strictEq b

/-- `ComesTo n a b r`: comparing two values comes to the result `r` after `n` conversions. -/
inductive ComesTo : Nat → Value → Value → Bool → Prop
  | asIs {a b : Value} (h : a.convert? b = none) : ComesTo 0 a b (a.looseEqAsIs b)
  | convert {n : Nat} {a b c d : Value} {r : Bool} (h : a.convert? b = some (c, d))
    (hrest : ComesTo n c d r) : ComesTo (n + 1) a b r

/-- How often a value is converted at most. -/
def conversions : Value → Nat
  | bool _ | array _ _ | object _ _ => 1
  | _ => 0

/-- No conversion changes the result, and each leaves fewer of them. -/
theorem convert?_spec (h : a.convert? b = some (c, d)) :
    a.looseEq b = c.looseEq d ∧ c.conversions + d.conversions < a.conversions + b.conversions := by
  cases a <;> cases b <;> cases h <;>
    exact ⟨rfl, by simp [conversions, toPrimitive]⟩

theorem looseEq_of_convert?_eq_none (h : a.convert? b = none) : a.looseEq b = a.looseEqAsIs b := by
  cases a <;> cases b <;> first | rfl | cases h

theorem exists_comesTo (a b : Value) :
    ∃ n ≤ a.conversions + b.conversions, ComesTo n a b (a.looseEq b) := by
  cases h : a.convert? b with
  | none =>
    rw [looseEq_of_convert?_eq_none h]
    exact ⟨0, Nat.zero_le _, .asIs h⟩
  | some converted =>
    obtain ⟨c, d⟩ := converted
    obtain ⟨heq, hlt⟩ := convert?_spec h
    obtain ⟨n, hn, hrest⟩ := exists_comesTo c d
    rw [heq]
    exact ⟨n + 1, by omega, .convert h hrest⟩
termination_by a.conversions + b.conversions

theorem conversions_le (a : Value) : a.conversions ≤ 1 := by
  cases a <;> simp [conversions]

theorem ComesTo.eq_looseEq {n : Nat} {r : Bool} (h : ComesTo n a b r) : r = a.looseEq b := by
  induction h with
  | asIs h => exact (looseEq_of_convert?_eq_none h).symm
  | convert h _ ih =>
    rw [(convert?_spec h).1]
    exact ih

/-! ## Laws -/

/-- Two numbers, two texts, two booleans, two arrays or two objects. -/
inductive SameKind : Value → Value → Prop
  | number (x y : Float) : SameKind (.number x) (.number y)
  | string (s t : String) : SameKind (.string s) (.string t)
  | bool (p q : Bool) : SameKind (.bool p) (.bool q)
  | array (i j : Identity) (xs ys : List Value) : SameKind (.array i xs) (.array j ys)
  | object (i j : Identity) (es fs : List (String × Value)) : SameKind (.object i es) (.object j fs)

theorem looseEqPlain_comm (a b : Value) : a.looseEqPlain b = b.looseEqPlain a := by
  cases a <;> cases b <;> simp only [looseEqPlain, toPrimitive, strictEq] <;>
    first | exact Number.beq_comm _ _ | exact BEq.comm

theorem looseEq_comm (a b : Value) : a.looseEq b = b.looseEq a := by
  unfold looseEq
  rw [Bool.or_comm, Bool.and_comm, looseEqPlain_comm]

/-- Booleans are equal if and only if their numbers are. -/
theorem looseEq_of_sameKind (h : SameKind a b) : a.looseEq b = a.strictEq b := by
  cases h with
  | bool p q => cases p <;> cases q <;> decide +kernel
  | number | string | array | object => rfl

theorem sameKind_of_strictEq (h : a.strictEq b = true) (ha : a.isNullish = false) :
    SameKind a b := by
  cases a <;> cases b <;>
    first | constructor | exact Bool.noConfusion h | exact Bool.noConfusion ha

theorem looseEq_of_isNullish (h : a.isNullish = true) : a.looseEq b = b.isNullish := by
  rw [looseEq, h, Bool.true_or, if_pos rfl, Bool.true_and]

theorem isNullish_of_strictEq (h : a.strictEq b = true) (ha : a.isNullish = true) :
    b.isNullish = true := by
  cases a <;> cases b <;>
    first | exact Bool.noConfusion ha | exact Bool.noConfusion h | rfl

theorem looseEq_of_strictEq (h : a.strictEq b = true) : a.looseEq b = true := by
  cases ha : a.isNullish with
  | true => rw [looseEq_of_isNullish ha, isNullish_of_strictEq h ha]
  | false => rw [looseEq_of_sameKind (sameKind_of_strictEq h ha), h]

theorem looseEq_toText (ha : a.isContainer = true) (hb : b.isScalar = true) :
    a.looseEq b = (string a.toText).looseEq b := by
  cases a <;> cases b <;>
    first | exact Bool.noConfusion ha | exact Bool.noConfusion hb | rfl

/-- **The laws of loose equality.** The chain of conversions of any two values ends after at most
two of them, in one result only. Loose equality is symmetric; it holds wherever strict equality
does; on two numbers, texts, booleans, arrays or objects it is strict equality, which for arrays
and objects is identity; null and undefined are equal to each other and to nothing else; and an
array or object meets a number, text or boolean as its text. -/
theorem looseEq_laws :
    (∀ a b : Value, (∃ n ≤ 2, ComesTo n a b (a.looseEq b)) ∧
      ∀ n r, ComesTo n a b r → r = a.looseEq b) ∧
    (∀ a b : Value, a.looseEq b = b.looseEq a) ∧
    (∀ a b : Value, a.strictEq b = true → a.looseEq b = true) ∧
    (∀ a b : Value, SameKind a b → a.looseEq b = a.strictEq b) ∧
    (∀ (i j : Identity) (xs ys : List Value) (es fs : List (String × Value)),
      ((array i xs).looseEq (array j ys) = true ↔ i = j) ∧
      ((object i es).looseEq (object j fs) = true ↔ i = j)) ∧
    (∀ a b : Value, a.isNullish = true → a.looseEq b = b.isNullish) ∧
    ∀ a b : Value, a.isContainer = true → b.isScalar = true →
      a.looseEq b = (string a.toText).looseEq b ∧ b.looseEq a = b.looseEq (string a.toText) := by
  refine ⟨fun a b => ⟨?_, fun n r h => h.eq_looseEq⟩, looseEq_comm,
    fun a b => looseEq_of_strictEq, fun a b => looseEq_of_sameKind,
    fun i j xs ys es fs => ⟨beq_iff_eq, beq_iff_eq⟩, fun a b => looseEq_of_isNullish,
    fun a b ha hb => ⟨looseEq_toText ha hb, ?_⟩⟩
  · obtain ⟨n, hn, h⟩ := exists_comesTo a b
    have ha := conversions_le a
    have hb := conversions_le b
    exact ⟨n, by omega, h⟩
  · rw [looseEq_comm b a, looseEq_comm b, looseEq_toText ha hb]

/-- A boolean and an array of an array are both converted, in either order. -/
theorem looseEq_laws_nested :
    let nested := array ⟨.given 0, []⟩ [array ⟨.given 0, [0]⟩ [number 1]]
    (∃ n ≤ 2, ComesTo n (bool true) nested ((bool true).looseEq nested)) ∧
      nested.looseEq (bool true) = (string "1").looseEq (bool true) := by
  intro nested
  obtain ⟨hends, -, -, -, -, -, htext⟩ := looseEq_laws
  exact ⟨(hends (bool true) nested).1, (htext nested (bool true) rfl rfl).1⟩

end ScriptFold.Value
