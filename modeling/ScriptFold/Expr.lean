import ScriptFold.Span

/-!
Expression trees.

Every node carries an identity, which tells its occurrence from every other, and the span of its
text. Properties stand only among the members of an object; spreads stand there, among array
elements and among call arguments.
-/

namespace ScriptFold

/-! ## Operators -/

/-- Operators that evaluate both operands. -/
inductive BinaryOp
  | add
  | sub
  | mul
  | div
  | rem
  | exp
  | bitAnd
  | bitOr
  | bitXor
  | shl
  | shr
  | ushr
  | looseEq
  | looseNe
  | strictEq
  | strictNe
  | lt
  | le
  | gt
  | ge
deriving DecidableEq, Repr

def BinaryOp.spelling : BinaryOp → String
  | add => "+"
  | sub => "-"
  | mul => "*"
  | div => "/"
  | rem => "%"
  | exp => "**"
  | bitAnd => "&"
  | bitOr => "|"
  | bitXor => "^"
  | shl => "<<"
  | shr => ">>"
  | ushr => ">>>"
  | looseEq => "=="
  | looseNe => "!="
  | strictEq => "==="
  | strictNe => "!=="
  | lt => "<"
  | le => "<="
  | gt => ">"
  | ge => ">="

/-- Operators whose left operand may decide. -/
inductive LogicalOp
  | and
  | or
  | nullish
deriving DecidableEq, Repr

def LogicalOp.spelling : LogicalOp → String
  | and => "&&"
  | or => "||"
  | nullish => "??"

inductive UnaryOp
  | neg
  | plus
  | bitNot
  | not
  | void
  | typeof
deriving DecidableEq, Repr

def UnaryOp.spelling : UnaryOp → String
  | neg => "-"
  | plus => "+"
  | bitNot => "~"
  | not => "!"
  | void => "void"
  | typeof => "typeof"

/-- Simple assignment, and assignments that read their target. -/
inductive AssignOp
  | simple
  | add
  | sub
  | and
  | or
  | nullish
deriving DecidableEq, Repr

def AssignOp.spelling : AssignOp → String
  | simple => "="
  | add => "+="
  | sub => "-="
  | and => "&&="
  | or => "||="
  | nullish => "??="

/-! ## Nodes -/

/-- Identities have no upper bound here. Where they are kept in 32 bits they are the same as long
as less than `2 ^ 32` of them are given out. -/
abbrev NodeId := Nat

structure Node where
  id : NodeId
  span : Span
deriving DecidableEq, Repr, Inhabited

/-- An expression. An array element that is `none` is a hole. An `invalid` node stands where no
expression could be read. -/
inductive Expr where
  | null (node : Node)
  | bool (node : Node) (value : Bool)
  | number (node : Node) (value : Float)
  | string (node : Node) (value : String)
  | ident (node : Node) (name : String)
  | array (node : Node) (elements : List (Option Expr))
  | object (node : Node) (members : List Expr)
  | property (node : Node) (key value : Expr) (computed shorthand : Bool)
  | spread (node : Node) (argument : Expr)
  | member (node : Node) (object property : Expr) (computed optional : Bool)
  | call (node : Node) (callee : Expr) (arguments : List Expr) (optional : Bool)
  | assign (node : Node) (op : AssignOp) (target value : Expr)
  | binary (node : Node) (op : BinaryOp) (left right : Expr)
  | logical (node : Node) (op : LogicalOp) (left right : Expr)
  | unary (node : Node) (op : UnaryOp) (argument : Expr)
  | conditional (node : Node) (test consequent alternate : Expr)
  | sequence (node : Node) (expressions : List Expr)
  | invalid (node : Node)
deriving Inhabited

namespace Expr

def node : Expr → Node
  | null n | bool n _ | number n _ | string n _ | ident n _ | array n _ | object n _
  | property n _ _ _ _ | spread n _ | member n _ _ _ _ | call n _ _ _ | assign n _ _ _
  | binary n _ _ _ | logical n _ _ _ | unary n _ _ | conditional n _ _ _ | sequence n _
  | invalid n => n

def id (e : Expr) : NodeId := e.node.id

def span (e : Expr) : Span := e.node.span

def name? : Expr → Option String
  | ident _ name => some name
  | _ => none

def children : Expr → List Expr
  | null _ | bool _ _ | number _ _ | string _ _ | ident _ _ | invalid _ => []
  | array _ es => es.filterMap fun e => e
  | object _ ms => ms
  | property _ k v _ _ => [k, v]
  | spread _ a => [a]
  | member _ o p _ _ => [o, p]
  | call _ f xs _ => f :: xs
  | assign _ _ t v => [t, v]
  | binary _ _ l r | logical _ _ l r => [l, r]
  | unary _ _ a => [a]
  | conditional _ t c a => [t, c, a]
  | sequence _ es => es

def isAssignable : Expr → Bool
  | ident _ _ | member _ _ _ _ false => true
  | _ => false

mutual

/-- The node and all nodes below it, each before its children, with the nodes they hang from. -/
def withParents (parent : Option Expr) : Expr → List (Expr × Option Expr)
  | null n => [(null n, parent)]
  | bool n b => [(bool n b, parent)]
  | number n x => [(number n x, parent)]
  | string n s => [(string n s, parent)]
  | ident n x => [(ident n x, parent)]
  | invalid n => [(invalid n, parent)]
  | array n es => (array n es, parent) :: withParentsElements (array n es) es
  | object n ms => (object n ms, parent) :: withParentsAll (object n ms) ms
  | property n k v c s =>
    let e := property n k v c s
    (e, parent) :: withParents (some e) k ++ withParents (some e) v
  | spread n a => (spread n a, parent) :: withParents (some (spread n a)) a
  | member n o p c q =>
    let e := member n o p c q
    (e, parent) :: withParents (some e) o ++ withParents (some e) p
  | call n f xs o =>
    let e := call n f xs o
    (e, parent) :: withParents (some e) f ++ withParentsAll e xs
  | assign n op t v =>
    let e := assign n op t v
    (e, parent) :: withParents (some e) t ++ withParents (some e) v
  | binary n op l r =>
    let e := binary n op l r
    (e, parent) :: withParents (some e) l ++ withParents (some e) r
  | logical n op l r =>
    let e := logical n op l r
    (e, parent) :: withParents (some e) l ++ withParents (some e) r
  | unary n op a => (unary n op a, parent) :: withParents (some (unary n op a)) a
  | conditional n t c a =>
    let e := conditional n t c a
    (e, parent) :: withParents (some e) t ++ withParents (some e) c ++ withParents (some e) a
  | sequence n es => (sequence n es, parent) :: withParentsAll (sequence n es) es

def withParentsAll (parent : Expr) : List Expr → List (Expr × Option Expr)
  | [] => []
  | e :: rest => withParents (some parent) e ++ withParentsAll parent rest

def withParentsElements (parent : Expr) : List (Option Expr) → List (Expr × Option Expr)
  | [] => []
  | none :: rest => withParentsElements parent rest
  | some e :: rest => withParents (some parent) e ++ withParentsElements parent rest

end

end Expr

end ScriptFold
