import ScriptFold.Text.Units
import ScriptFold.Value.Conversion

/-!
Reading properties.

Only data can be read: the items and the length of an array, the units and the length of a text,
and the entries of an object. Other keys read as undefined, unless every value of the kind
inherits a method of that name; methods have no value here.
-/

namespace ScriptFold

/-- The kinds of values that methods are inherited from. -/
inductive Prototype
  | ofArrays
  | ofStrings
  | ofNumbers
  | ofBooleans
  | ofObjects
deriving DecidableEq, Repr

namespace Prototype

def text : Prototype → String
  | ofArrays => "Array.prototype"
  | ofStrings => "String.prototype"
  | ofNumbers => "Number.prototype"
  | ofBooleans => "Boolean.prototype"
  | ofObjects => "Object.prototype"

def members : Prototype → List String
  | ofArrays => ["at", "concat", "copyWithin", "entries", "every", "fill", "filter", "find",
      "findIndex", "findLast", "findLastIndex", "flat", "flatMap", "forEach", "includes",
      "indexOf", "join", "keys", "lastIndexOf", "map", "pop", "push", "reduce", "reduceRight",
      "reverse", "shift", "slice", "some", "sort", "splice", "toLocaleString", "toReversed",
      "toSorted", "toSpliced", "toString", "unshift", "values", "with"]
  | ofStrings => ["anchor", "at", "big", "blink", "bold", "charAt", "charCodeAt", "codePointAt",
      "concat", "endsWith", "fixed", "fontcolor", "fontsize", "includes", "indexOf",
      "isWellFormed", "italics", "lastIndexOf", "link", "localeCompare", "match", "matchAll",
      "normalize", "padEnd", "padStart", "repeat", "replace", "replaceAll", "search", "slice",
      "small", "split", "startsWith", "strike", "sub", "substr", "substring", "sup",
      "toLocaleLowerCase", "toLocaleUpperCase", "toLowerCase", "toString", "toUpperCase",
      "toWellFormed", "trim", "trimEnd", "trimLeft", "trimRight", "trimStart", "valueOf"]
  | ofNumbers => ["toExponential", "toFixed", "toLocaleString", "toPrecision", "toString",
      "valueOf"]
  | ofBooleans => ["toString", "valueOf"]
  | ofObjects => ["constructor", "hasOwnProperty", "isPrototypeOf", "propertyIsEnumerable",
      "toLocaleString", "toString", "valueOf", "__proto__", "__defineGetter__",
      "__defineSetter__", "__lookupGetter__", "__lookupSetter__"]

end Prototype

inductive ReadError
  | nullish (key object : String)
  | inherited (key : String) (prototype : Prototype)
  | loneSurrogate (index : Nat)
deriving DecidableEq, Repr

def ReadError.message : ReadError → String
  | nullish key object => s!"cannot read property `{key}` of {object}"
  | inherited key p => s!"`{key}` is inherited from {p.text} and has no compile-time value"
  | loneSurrogate index => s!"index {index} splits a surrogate pair"

namespace Value

/-- The place that a key counts, if it is written as a number is and below `2 ^ 32 - 1`. -/
def arrayIndex? (key : String) : Option Nat :=
  let cs := key.toList
  if cs = [] ∨ !cs.all Char.isDigit ∨ (cs.head? = some '0' ∧ cs.length ≠ 1) then none
  else
    let n := Number.ofDigits cs
    if n < UInt32.size - 1 then some n else none

def unitAt (s : String) (index : Nat) : Except ReadError (Option Value) :=
  match (Text.units s)[index]? with
  | none => .ok none
  | some u =>
    match Text.ofUnit? u with
    | some t => .ok (some (.string t))
    | none => .error (.loneSurrogate index)

def own (v : Value) (key : String) : Except ReadError (Option Value) :=
  match v with
  | undefined => .error (.nullish key "undefined")
  | null => .error (.nullish key "null")
  | bool _ | number _ => .ok none
  | string s =>
    if key = "length" then .ok (some (number (Float.ofNat (Text.units s).length)))
    else
      match arrayIndex? key with
      | some index => unitAt s index
      | none => .ok none
  | array _ items =>
    if key = "length" then .ok (some (number (Float.ofNat items.length)))
    else .ok ((arrayIndex? key).bind fun index => items[index]?)
  | object _ entries => .ok (entries.lookup key)

/-- What the values of a kind inherit from, before what all inherit from. -/
def prototypes : Value → List Prototype
  | array _ _ => [.ofArrays, .ofObjects]
  | string _ => [.ofStrings, .ofObjects]
  | number _ => [.ofNumbers, .ofObjects]
  | bool _ => [.ofBooleans, .ofObjects]
  | undefined | null | object _ _ => [.ofObjects]

def get (v : Value) (key : String) : Except ReadError Value :=
  match v.own key with
  | .error e => .error e
  | .ok (some value) => .ok value
  | .ok none =>
    match v.prototypes.find? fun p => p.members.contains key with
    | some p => .error (.inherited key p)
    | none => .ok .undefined

end Value

end ScriptFold
