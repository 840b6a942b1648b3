import Mathlib.Data.List.Flatten
import Mathlib.Data.List.Nodup
import Mathlib.Data.List.Pairwise
import ScriptFold.Proofs.Expr.Nodes

/-!
Walks through a tree.

A walk comes to a node before the nodes below it, and to these in source order, but for two things:
it comes to the property of a member before its object, and to the keys and values of an object
without the members that they stand in.
-/

namespace ScriptFold.Expr

variable {c d e : Expr}

/-! ## Trees with different identities -/

theorem eq_of_mem_ids {es : List Expr} (h : (es.flatMap ids).Nodup) (hc : c ∈ es) (hd : d ∈ es)
    {i : NodeId} (hic : i ∈ c.ids) (hid : i ∈ d.ids) : c = d := by
  have hdisjoint := (List.nodup_flatMap.1 h).2
  have : Std.Symm (Function.onFun List.Disjoint ids) := ⟨fun _ _ h _ hc hb => h hb hc⟩
  by_contra hne
  exact hdisjoint.forall hc hd hne hic hid

theorem nodup_of_nodup_ids {es : List Expr} (h : (es.flatMap ids).Nodup) : es.Nodup := by
  refine (List.nodup_flatMap.1 h).2.imp fun {c d} hdisjoint heq => ?_
  subst heq
  exact hdisjoint c.id_mem_ids c.id_mem_ids

theorem nodup_children (h : e.ids.Nodup) : (e.children.flatMap ids).Nodup := by
  rw [ids_eq] at h
  exact h.of_append_left

theorem nodup_of_within (h : e.ids.Nodup) (hd : d.Within e) : d.ids.Nodup :=
  h.sublist (ids_sublist_of_within hd)

/-! ## Walks -/

/-- The nodes that a walk comes to from a node. -/
def operands : Expr → List Expr
  | object _ ms => ms.flatMap children
  | member _ o p _ _ => [p, o]
  | e => e.children

theorem below_of_mem_operands (h : d ∈ e.operands) : d.Below e := by
  cases e with
  | object n ms =>
    obtain ⟨q, hq, hd⟩ := List.mem_flatMap.1 h
    exact ⟨q, hq, .child hd⟩
  | member n o p _ _ =>
    have hd : d ∈ [o, p] := List.mem_pair.2 (List.mem_pair.1 h).symm
    exact .of_mem_children hd
  | _ => exact .of_mem_children h

theorem nodup_operands (h : e.ids.Nodup) : (e.operands.flatMap ids).Nodup := by
  have hchildren := nodup_children h
  cases e with
  | object n ms =>
    have hsub : ((ms.flatMap children).flatMap ids).Sublist (ms.flatMap ids) := by
      rw [List.flatMap_assoc]
      refine List.Sublist.flatMap_right ms fun q _ => ?_
      rw [ids_eq q]
      exact List.sublist_append_left _ _
    exact hchildren.sublist hsub
  | member n o p _ _ =>
    have hperm : ([p, o].flatMap ids).Perm ([o, p].flatMap ids) :=
      (List.Perm.swap o p []).flatMap_right ids
    exact hperm.nodup_iff.2 hchildren
  | _ => exact hchildren

/-- The walk through the node and all nodes below it. -/
def walk (e : Expr) : List Expr := e :: e.operands.attach.flatMap fun ⟨d, _⟩ => walk d
termination_by sizeOf e
decreasing_by exact (below_of_mem_operands ‹_›).sizeOf_lt

theorem walk_eq (e : Expr) : e.walk = e :: e.operands.flatMap walk := by
  rw [walk]
  simp

theorem within_of_mem_walk (h : d ∈ e.walk) : d.Within e := by
  induction e using below_induction with
  | h e ih =>
    rw [walk_eq, List.mem_cons, List.mem_flatMap] at h
    rcases h with rfl | ⟨c, hc, hd⟩
    · exact .refl
    · have hbelow := below_of_mem_operands hc
      exact (ih c hbelow hd).trans hbelow.within

theorem nodup_walk (h : e.ids.Nodup) : e.walk.Nodup := by
  induction e using below_induction with
  | h e ih =>
    have hoperands := nodup_operands h
    rw [walk_eq, List.nodup_cons, List.nodup_flatMap]
    refine ⟨fun hmem => ?_, fun c hc => ?_, ?_⟩
    · obtain ⟨c, hc, he⟩ := List.mem_flatMap.1 hmem
      exact ((below_of_mem_operands hc).of_within (within_of_mem_walk he)).ne rfl
    · have hbelow := below_of_mem_operands hc
      exact ih c hbelow (nodup_of_within h hbelow.within)
    · refine (List.nodup_flatMap.1 hoperands).2.imp fun {c c'} hdisjoint d hd hd' => ?_
      exact hdisjoint (mem_ids_of_within (within_of_mem_walk hd))
        (mem_ids_of_within (within_of_mem_walk hd'))

end ScriptFold.Expr
