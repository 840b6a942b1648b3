import ScriptFold.Expr
import ScriptFold.Token

/-!
The words of a tree.

A tree is written with marks and with words: names, literals, and the two operators that are
spelled as keywords. The words of a tree are listed in the order of the text. The name of a
property that is written as one name stands there once.
-/

namespace ScriptFold

/-- What is written as one word. -/
inductive Word
  /-- A node without children. -/
  | leaf (e : Expr)
  | operator (op : UnaryOp)

/-- The keyword of an operator. -/
def UnaryOp.keyword? : UnaryOp → Option Keyword
  | void => some .voidWord
  | typeof => some .typeofWord
  | _ => none

namespace Expr

mutual

/-- The words of a tree, in the order of the text. -/
def words : Expr → List Word
  | null n => [.leaf (null n)]
  | bool n b => [.leaf (bool n b)]
  | number n x => [.leaf (number n x)]
  | string n s => [.leaf (string n s)]
  | ident n x => [.leaf (ident n x)]
  | invalid n => [.leaf (invalid n)]
  | array _ es => wordsElements es
  | object _ ms => wordsAll ms
  | property _ k v _ shorthand => if shorthand then words k else words k ++ words v
  | spread _ a => words a
  | member _ o p _ _ => words o ++ words p
  | call _ f xs _ => words f ++ wordsAll xs
  | assign _ _ t v => words t ++ words v
  | binary _ _ l r | logical _ _ l r => words l ++ words r
  | unary _ op a => (if op.keyword?.isSome then [.operator op] else []) ++ words a
  | conditional _ t c a => words t ++ words c ++ words a
  | sequence _ es => wordsAll es

def wordsAll : List Expr → List Word
  | [] => []
  | e :: rest => words e ++ wordsAll rest

def wordsElements : List (Option Expr) → List Word
  | [] => []
  | none :: rest => wordsElements rest
  | some e :: rest => words e ++ wordsElements rest

end

/-- The leaf is what a token is read as. -/
def IsReadAs : Expr → TokenKind → Prop
  | null _, k => k = .keyword .nullWord
  | bool _ b, k => k = .keyword (if b then .trueWord else .falseWord)
  | number _ x, k => k = .number x
  | string _ s, k => k = .string s
  | ident _ x, k => k.name? = some x
  | _, _ => False

end Expr

def Token.isWord (t : Token) : Bool :=
  match t.kind with
  | .mark _ | .eof => false
  | _ => true

/-- The word is written as the token. A leaf has the span of its token. -/
def Word.Covers : Word → Token → Prop
  | leaf e, t => e.IsReadAs t.kind ∧ e.span = t.span
  | operator op, t => op.keyword?.map TokenKind.keyword = some t.kind

end ScriptFold
