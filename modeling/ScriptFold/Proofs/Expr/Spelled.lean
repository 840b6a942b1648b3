import ScriptFold.Grammar.Expression
import ScriptFold.Proofs.Expr.WellFormed

/-!
How expressions are written.

Each kind of expression has a rank: the comma operator the least one, then assignments and
conditionals, the infix operators by their level, prefix operators, links, and everything else.
Each place in an expression asks for a rank. Parentheses stand around an expression whose rank is
less than its place asks for, and around an optional link before one that is not optional; nowhere
else. Identities and spans do not matter to what is written.
-/

namespace ScriptFold

open Grammar

/-! ## Operators -/

def BinaryOp.mark : BinaryOp → Mark
  | add => .plus
  | sub => .minus
  | mul => .star
  | div => .slash
  | rem => .percent
  | exp => .starStar
  | bitAnd => .amp
  | bitOr => .pipe
  | bitXor => .caret
  | shl => .shl
  | shr => .shr
  | ushr => .ushr
  | looseEq => .eqEq
  | looseNe => .bangEq
  | strictEq => .eqEqEq
  | strictNe => .bangEqEq
  | lt => .lt
  | le => .ltEq
  | gt => .gt
  | ge => .gtEq

def LogicalOp.mark : LogicalOp → Mark
  | and => .andAnd
  | or => .orOr
  | nullish => .questionQuestion

/-- How tight an operator binds. -/
def BinaryOp.level : BinaryOp → Nat
  | bitOr => 3
  | bitXor => 4
  | bitAnd => 5
  | looseEq | looseNe | strictEq | strictNe => 6
  | lt | le | gt | ge => 7
  | shl | shr | ushr => 8
  | add | sub => 9
  | mul | div | rem => 10
  | exp => powerLevel

def LogicalOp.level : LogicalOp → Nat
  | or | nullish => 1
  | and => 2

def AssignOp.mark : AssignOp → Mark
  | simple => .eq
  | add => .plusEq
  | sub => .minusEq
  | and => .andAndEq
  | or => .orOrEq
  | nullish => .questionQuestionEq

def UnaryOp.token : UnaryOp → TokenKind
  | neg => .mark .minus
  | plus => .mark .plus
  | bitNot => .mark .tilde
  | not => .mark .bang
  | void => .keyword .voidWord
  | typeof => .keyword .typeofWord

namespace Grammar.Connective

def mark : Connective → Mark
  | binary op => op.mark
  | logical op => op.mark

def level : Connective → Nat
  | binary op => op.level
  | logical op => op.level

end Grammar.Connective

theorem connective?_mark (op : Connective) : connective? (.mark op.mark) = some (op.level, op) := by
  cases op with
  | binary op => cases op <;> rfl
  | logical op => cases op <;> rfl

theorem assignOp?_mark (op : AssignOp) : assignOp? (.mark op.mark) = some op := by
  cases op <;> rfl

theorem unaryOp?_token (op : UnaryOp) : unaryOp? op.token = some op := by
  cases op <;> rfl

def leftSlot (level : Nat) : Nat := if level = powerLevel then 13 else level + 1

def rightSlot (level : Nat) : Nat := if level = powerLevel then level + 1 else level + 2

/-! ## Words -/

def bracketed (needed : Bool) (words : List TokenKind) : List TokenKind :=
  if needed then [.mark .lparen] ++ words ++ [.mark .rparen] else words

/-- What follows an item of a list. -/
def separator (trailing : Bool) (more : Bool) : List TokenKind :=
  if more || trailing then [.mark .comma] else []

/-- What may be written in two ways. -/
structure Style where
  /-- A comma stands after the last item of the node. -/
  trailing : Expr → Bool
  /-- The link is marked as optional again after an optional link. -/
  repeats : Expr → Bool

namespace Expr

/-- How tight the expression is. -/
def rank : Expr → Nat
  | sequence _ _ => 0
  | assign _ _ _ _ | conditional _ _ _ _ => 1
  | binary _ op _ _ => op.level + 1
  | logical _ op _ _ => op.level + 1
  | unary _ _ _ => 13
  | member _ _ _ _ _ | call _ _ _ _ => 14
  | _ => 15

@[simp] theorem rank_property (n : Node) (key value : Expr) (computed shorthand : Bool) :
    (property n key value computed shorthand).rank = 15 := rfl

def isOptionalLink : Expr → Bool
  | member _ _ _ _ optional | call _ _ _ optional => optional
  | _ => false

def parenthesized (o : Expr) (optional : Bool) : Bool :=
  o.rank < 14 || (o.isOptionalLink && !optional)

/-- The link after an object is marked as optional. After an optional link it need not be. -/
def marked (o : Expr) (optional again : Bool) : Bool := optional && (!o.isOptionalLink || again)

mutual

def spelled (y : Style) : Expr → List TokenKind
  | null _ => [.keyword .nullWord]
  | bool _ b => [.keyword (if b then .trueWord else .falseWord)]
  | number _ x => [.number x]
  | string _ s => [.string s]
  | ident _ x => [.ofWord x]
  | array n es =>
    [.mark .lbracket] ++ spelledElements y (y.trailing (array n es)) es ++ [.mark .rbracket]
  | object n ms => [.mark .lbrace] ++ spelledAll y (y.trailing (object n ms)) ms ++ [.mark .rbrace]
  | property _ k _ _ true => spelled y k
  | property _ k v false false =>
    spelled y k ++ [.mark .colon] ++ bracketed (v.rank < 1) (spelled y v)
  | property _ k v true false =>
    [.mark .lbracket] ++ spelled y k ++ [.mark .rbracket] ++ [.mark .colon] ++
      bracketed (v.rank < 1) (spelled y v)
  | spread _ a => [.mark .ellipsis] ++ bracketed (a.rank < 1) (spelled y a)
  | member n o p false optional =>
    bracketed (o.parenthesized optional) (spelled y o) ++
      [.mark (if o.marked optional (y.repeats (member n o p false optional)) then .questionDot
        else .dot)] ++ spelled y p
  | member n o p true optional =>
    bracketed (o.parenthesized optional) (spelled y o) ++
      (if o.marked optional (y.repeats (member n o p true optional)) then [.mark .questionDot]
        else []) ++ [.mark .lbracket] ++ spelled y p ++ [.mark .rbracket]
  | call n f xs optional =>
    bracketed (f.parenthesized optional) (spelled y f) ++
      (if f.marked optional (y.repeats (call n f xs optional)) then [.mark .questionDot] else []) ++
      [.mark .lparen] ++ spelledAll y (y.trailing (call n f xs optional)) xs ++ [.mark .rparen]
  | assign _ op t v => spelled y t ++ [.mark op.mark] ++ bracketed (v.rank < 1) (spelled y v)
  | binary _ op l r =>
    bracketed (l.rank < leftSlot op.level) (spelled y l) ++ [.mark op.mark] ++
      bracketed (r.rank < rightSlot op.level) (spelled y r)
  | logical _ op l r =>
    bracketed (l.rank < leftSlot op.level) (spelled y l) ++ [.mark op.mark] ++
      bracketed (r.rank < rightSlot op.level) (spelled y r)
  | unary _ op a => [op.token] ++ bracketed (a.rank < 13) (spelled y a)
  | conditional _ t c a =>
    bracketed (t.rank < 2) (spelled y t) ++ [.mark .question] ++
      bracketed (c.rank < 1) (spelled y c) ++ [.mark .colon] ++
      bracketed (a.rank < 1) (spelled y a)
  | sequence _ es => spelledAll y false es
  | invalid _ => [.error]

def spelledAll (y : Style) (trailing : Bool) : List Expr → List TokenKind
  | [] => []
  | e :: rest =>
    bracketed (e.rank < 1) (spelled y e) ++ separator trailing (!rest.isEmpty) ++
      spelledAll y trailing rest

/-- The tokens of the elements of an array. A hole is a comma. -/
def spelledElements (y : Style) (trailing : Bool) : List (Option Expr) → List TokenKind
  | [] => []
  | none :: rest => [.mark .comma] ++ spelledElements y trailing rest
  | some e :: rest =>
    bracketed (e.rank < 1) (spelled y e) ++ separator trailing (!rest.isEmpty) ++
      spelledElements y trailing rest

end

/-! ## Trees without places -/

mutual

/-- The tree without identities and spans. -/
def bare : Expr → Expr
  | null _ => null default
  | bool _ b => bool default b
  | number _ x => number default x
  | string _ s => string default s
  | ident _ x => ident default x
  | array _ es => array default (bareElements es)
  | object _ ms => object default (bareAll ms)
  | property _ k v c s => property default (bare k) (bare v) c s
  | spread _ a => spread default (bare a)
  | member _ o p c q => member default (bare o) (bare p) c q
  | call _ f xs o => call default (bare f) (bareAll xs) o
  | assign _ op t v => assign default op (bare t) (bare v)
  | binary _ op l r => binary default op (bare l) (bare r)
  | logical _ op l r => logical default op (bare l) (bare r)
  | unary _ op a => unary default op (bare a)
  | conditional _ t c a => conditional default (bare t) (bare c) (bare a)
  | sequence _ es => sequence default (bareAll es)
  | invalid _ => invalid default

def bareAll : List Expr → List Expr
  | [] => []
  | e :: rest => bare e :: bareAll rest

def bareElements : List (Option Expr) → List (Option Expr)
  | [] => []
  | none :: rest => none :: bareElements rest
  | some e :: rest => some (bare e) :: bareElements rest

end

theorem isAssignable_bare (e : Expr) : e.bare.isAssignable = e.isAssignable := by
  cases e with
  | member n o p c q => cases q <;> rfl
  | _ => rfl

theorem bare_apply (op : Connective) (n : Node) (l r : Expr) :
    (op.apply n l r).bare = op.apply default l.bare r.bare := by
  cases op <;> rfl

/-! ## Expressions of the grammar -/

def HasFreeName (e : Expr) : Prop := ∀ x, e.name? = some x → (TokenKind.ofWord x).binding? = some x

/-- The children that are expressions: all but keys and member names that are not computed. -/
def values : Expr → List Expr
  | property _ _ v false _ => [v]
  | member _ o _ false _ => [o]
  | e => e.children

/-- The node is one that the grammar can express. -/
def Sayable (e : Expr) : Prop := e.Proper ∧ ∀ c ∈ e.values, c.HasFreeName

/-- The expression is one that the grammar can express. -/
structure Grammatical (e : Expr) : Prop where
  isOperand : e.isOperand
  hasFreeName : e.HasFreeName
  everywhere : e.Everywhere Sayable

end Expr

end ScriptFold
