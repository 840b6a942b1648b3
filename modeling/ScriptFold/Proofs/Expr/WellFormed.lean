import ScriptFold.Proofs.Expr.Within
import ScriptFold.Program

/-!
Well-formed trees.

What a node may hold is a matter of the node alone: which of its children may be spreads or
properties, and what may be assigned to. A tree is well formed if all nodes within it are; so this
passes to the parts of a tree and is put together from them.
-/

namespace ScriptFold

namespace Expr

def isOperand : Expr → Bool
  | property _ _ _ _ _ | spread _ _ | invalid _ => false
  | _ => true

def isElement : Expr → Bool
  | spread _ _ => true
  | e => e.isOperand

theorem isElement_of_isOperand {e : Expr} (h : e.isOperand) : e.isElement := by
  cases e <;> first | exact h | rfl

def isMember : Expr → Bool
  | property _ _ _ _ _ | spread _ _ => true
  | _ => false

def isPlainKey : Expr → Bool
  | ident _ _ | string _ _ | number _ _ => true
  | _ => false

/-- The children of the node are such as the grammar allows there. -/
def Proper : Expr → Prop
  | null _ | bool _ _ | number _ _ | string _ _ | ident _ _ => True
  | array _ es => ∀ e, some e ∈ es → e.isElement
  | object _ ms => ∀ m ∈ ms, m.isMember
  | property _ key value true shorthand => key.isOperand ∧ value.isOperand ∧ shorthand = false
  | property _ key value false false => key.isPlainKey ∧ value.isOperand
  | property _ key value false true => ∃ x, key.name? = some x ∧ value.name? = some x
  | spread _ a => a.isOperand
  | member _ o p true _ => o.isOperand ∧ p.isOperand
  | member _ o p false _ => o.isOperand ∧ p.name?.isSome
  | call _ f xs _ => f.isOperand ∧ ∀ x ∈ xs, x.isElement
  | assign _ _ t v => t.isAssignable ∧ v.isOperand
  | binary _ _ l r | logical _ _ l r => l.isOperand ∧ r.isOperand
  | unary _ _ a => a.isOperand
  | conditional _ t c a => t.isOperand ∧ c.isOperand ∧ a.isOperand
  | sequence _ es => 2 ≤ es.length ∧ ∀ e ∈ es, e.isOperand
  | invalid _ => False

/-- The key and the value of a property that is written as one name are two nodes. -/
def Apart : Expr → Prop
  | property _ key value _ true => key.id ≠ value.id
  | _ => True

/-- All nodes within a tree have a property. -/
def Everywhere (P : Expr → Prop) (e : Expr) : Prop := ∀ d : Expr, d.Within e → P d

section Everywhere

variable {P : Expr → Prop} {d e : Expr}

theorem Everywhere.self (h : e.Everywhere P) : P e := h e .refl

theorem Everywhere.within (h : e.Everywhere P) (hd : d.Within e) : d.Everywhere P :=
  fun c hc => h c (hc.trans hd)

theorem Everywhere.child (h : e.Everywhere P) (hd : d ∈ e.children) : d.Everywhere P :=
  h.within (.child hd)

theorem everywhere_of (h : P e) (hchildren : ∀ c ∈ e.children, c.Everywhere P) :
    e.Everywhere P := by
  intro d hd
  cases hd with
  | refl => exact h
  | step hb hd => exact hchildren _ hb d hd

end Everywhere

/-- The node is as the grammar allows, and its parts are nodes of their own. -/
def Sound (e : Expr) : Prop := e.Proper ∧ e.Apart

/-- The tree is a well-formed value. -/
def WellFormed (e : Expr) : Prop := e.isOperand ∧ e.Everywhere Sound

end Expr

/-- The variable has a value if its kind asks for one, and the value is well formed. -/
def Declarator.WellFormed (kind : VarKind) (d : Declarator) : Prop :=
  (kind = .constVar → d.init.isSome) ∧ ∀ e ∈ d.init, e.WellFormed

namespace Stmt

mutual

/-- All declarations and expressions of the statement are well formed, at any depth. -/
def WellFormed : Stmt → Prop
  | declare _ kind ds => ∀ d ∈ ds, d.WellFormed kind
  | block _ body => AllWellFormed body
  | expr _ e => e.WellFormed
  | importDecl _ _ | empty _ => True

def AllWellFormed : List Stmt → Prop
  | [] => True
  | s :: rest => WellFormed s ∧ AllWellFormed rest

end

end Stmt

end ScriptFold
