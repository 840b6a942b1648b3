import ScriptFold.Expr

/-!
Nodes within a node.

Every node lies within itself, and what lies within a child of a node lies within the node. Among
the nodes within a tree are the names of parts: keys of properties and members after a point.
-/

namespace ScriptFold.Expr

/-- `Within a e`: the node `a` is the node `e` or lies below it. -/
inductive Within (a : Expr) : Expr → Prop
  | refl : Within a a
  | step {b e : Expr} (hb : b ∈ e.children) (h : Within a b) : Within a e

theorem Within.child {a e : Expr} (h : a ∈ e.children) : Within a e := .step h .refl

theorem Within.trans {a b e : Expr} (hab : Within a b) (hbe : Within b e) : Within a e := by
  induction hbe with
  | refl => exact hab
  | step hb _ ih => exact .step hb ih

theorem Within.eq_of_leaf {a e : Expr} (h : a.Within e) (he : e.children = []) : a = e := by
  cases h with
  | refl => rfl
  | step hb _ =>
    rw [he] at hb
    cases hb

/-- The node that names a part of a node: the key of a property or the member after a point. -/
def partName? : Expr → Option Expr
  | member _ _ p false _ => some p
  | property _ key _ false _ => some key
  | _ => none

/-- `NamesPartIn k e`: the identifier `k` names a part of a node within `e`. -/
def NamesPartIn (k e : Expr) : Prop :=
  k.name?.isSome ∧ ∃ n : Expr, n.Within e ∧ n.partName? = some k

end ScriptFold.Expr
