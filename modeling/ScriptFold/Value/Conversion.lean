import ScriptFold.Number.OfText
import ScriptFold.Value

/-!
Values used as texts, numbers, words and keys.

An array or object is first turned into its text, and then used as that.
-/

namespace ScriptFold.Value

mutual

/-- The text of a value. An array joins the texts of its items, of which those that are null or
undefined are empty. -/
def toText : Value → String
  | undefined => "undefined"
  | null => "null"
  | bool b => if b then "true" else "false"
  | number x => Number.toText x
  | string s => s
  | array _ items => ",".intercalate (itemTexts items)
  | object _ _ => "[object Object]"

def itemTexts : List Value → List String
  | [] => []
  | item :: rest => (if item.isNullish then "" else toText item) :: itemTexts rest

end

def toPrimitive : Value → Value
  | v@(array _ _) | v@(object _ _) => .string v.toText
  | v => v

def toNumber : Value → Float
  | undefined => Number.nan
  | null => 0.0
  | bool b => if b then 1.0 else 0.0
  | number x => x
  | string s => Number.ofText s
  | v@(array _ _) | v@(object _ _) => Number.ofText v.toText

def toWord (v : Value) : UInt32 := Number.toWord v.toNumber

def toSignedWord (v : Value) : Int32 := Number.toSignedWord v.toNumber

def toKey (v : Value) : String := v.toText

end ScriptFold.Value
