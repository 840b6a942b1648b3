import ScriptFold.Proofs.Expr.Nodes

/-!
Nodes in their places.

In a program whose nodes have different identities, an index finds a node by its identity, and the
node that it hangs from is the one that has it as a child. So a node is read as the name of a part
exactly if it is the key of a property or the member after a point.
-/

namespace ScriptFold

namespace Expr

/-- Among the nodes of a tree with the nodes they hang from, the root hangs from what is given, and
any other node from the node that has it as a child. -/
theorem mem_withParents_iff {d e : Expr} {parent q? : Option Expr} :
    (d, q?) ∈ e.withParents parent ↔
      (d = e ∧ q? = parent) ∨ ∃ q, q? = some q ∧ q.Within e ∧ d ∈ q.children := by
  induction e using below_induction generalizing parent with
  | h e ih =>
    rw [withParents_eq, List.mem_cons, Prod.mk.injEq, List.mem_flatMap]
    refine or_congr_right ⟨?_, ?_⟩
    · rintro ⟨c, hc, h⟩
      rcases (ih c (.of_mem_children hc)).1 h with ⟨rfl, rfl⟩ | ⟨q, rfl, hq, hd⟩
      · exact ⟨e, rfl, .refl, hc⟩
      · exact ⟨q, rfl, .step hc hq, hd⟩
    · rintro ⟨q, rfl, hq, hd⟩
      cases hq with
      | refl => exact ⟨d, hd, (ih d (.of_mem_children hd)).2 (.inl ⟨rfl, rfl⟩)⟩
      | step hc hq => exact ⟨_, hc, (ih _ (.of_mem_children hc)).2 (.inr ⟨q, rfl, hq, hd⟩)⟩

theorem mem_children_of_partName? {d e : Expr} (h : e.partName? = some d) : d ∈ e.children := by
  unfold partName? at h
  split at h <;> cases h <;> simp [children]

end Expr

namespace Program

variable {p : Program} {d e q : Expr} {entry : Entry}

/-- The node names a part of a node of the program. -/
def NamesPart (p : Program) (e : Expr) : Prop := ∃ q ∈ p.nodes, q.partName? = some e

theorem Distinct.entry_of_mem (hp : p.Distinct) (h : entry ∈ (Index.ofProgram p).entries) :
    Index.entry? (Index.ofProgram p) entry.expr.id = some entry := by
  have hids : ((Index.ofProgram p).entries.map (·.expr.id)).Nodup := by
    have hnodup : (p.nodes.map Expr.id).Nodup := hp
    rwa [nodes, List.map_map] at hnodup
  unfold Index.entry?
  generalize (Index.ofProgram p).entries = entries at h hids
  induction entries with
  | nil => cases h
  | cons first rest ih =>
    obtain ⟨hfirst, hrest⟩ := List.nodup_cons.1 hids
    rcases List.mem_cons.1 h with rfl | h
    · simp
    · have hne : first.expr.id ≠ entry.expr.id := by
        intro heq
        exact hfirst (List.mem_map.2 ⟨entry, h, heq.symm⟩)
      rw [List.find?_cons_of_neg (by simpa using hne)]
      exact ih h hrest

theorem exists_entry (he : e ∈ p.nodes) : ∃ entry ∈ (Index.ofProgram p).entries, entry.expr = e :=
  List.mem_map.1 he

/-- Among the nodes of a program with the nodes they hang from, the expressions of statements hang
from no node, and any other node from the node that has it as a child. -/
theorem mem_links_iff {q? : Option Expr} :
    (d, q?) ∈ p.roots.flatMap (Expr.withParents none) ↔
      (d ∈ p.roots ∧ q? = none) ∨ ∃ q ∈ p.nodes, q? = some q ∧ d ∈ q.children := by
  simp only [List.mem_flatMap, Expr.mem_withParents_iff, mem_nodes_iff]
  constructor
  · rintro ⟨root, hroot, ⟨rfl, hnone⟩ | ⟨q, hq, hwithin, hchild⟩⟩
    · exact .inl ⟨hroot, hnone⟩
    · exact .inr ⟨q, ⟨root, hroot, hwithin⟩, hq, hchild⟩
  · rintro (⟨hroot, hnone⟩ | ⟨q, ⟨root, hroot, hwithin⟩, hq, hchild⟩)
    · exact ⟨d, hroot, .inl ⟨rfl, hnone⟩⟩
    · exact ⟨root, hroot, .inr ⟨q, hq, hwithin, hchild⟩⟩

/-- An index finds what a node hangs from by the identity of the node. -/
theorem Distinct.mem_links_iff_parent? (hp : p.Distinct) (hd : d ∈ p.nodes) {q? : Option Expr} :
    (d, q?) ∈ p.roots.flatMap (Expr.withParents none) ↔
      (Index.ofProgram p).parent? d.id = q? := by
  have hfound (parent? : Option Expr) (h : (d, parent?) ∈ p.roots.flatMap (Expr.withParents none)) :
      (Index.ofProgram p).parent? d.id = parent? := by
    rw [← p.map_link_entries] at h
    obtain ⟨entry, hentry, hlink⟩ := List.mem_map.1 h
    cases hlink
    rw [Index.parent?, hp.entry_of_mem hentry, Option.bind_some]
  refine ⟨hfound q?, ?_⟩
  rintro rfl
  obtain ⟨entry, hentry, rfl⟩ := exists_entry hd
  have hlink : entry.link ∈ p.roots.flatMap (Expr.withParents none) :=
    p.map_link_entries ▸ List.mem_map_of_mem hentry
  rwa [hfound entry.parent hlink]

theorem Distinct.parent?_eq_some_iff (hp : p.Distinct) (hd : d ∈ p.nodes) :
    (Index.ofProgram p).parent? d.id = some q ↔ q ∈ p.nodes ∧ d ∈ q.children := by
  rw [← hp.mem_links_iff_parent? hd, mem_links_iff]
  simp

theorem Distinct.parent?_eq_none_iff (hp : p.Distinct) (hd : d ∈ p.nodes) :
    (Index.ofProgram p).parent? d.id = none ↔ d ∈ p.roots := by
  rw [← hp.mem_links_iff_parent? hd, mem_links_iff]
  simp

theorem Distinct.isPartName_iff (hp : p.Distinct) (he : e ∈ p.nodes) :
    (Index.ofProgram p).isPartName e ↔ p.NamesPart e := by
  have hsame : ∀ d ∈ p.nodes, d.id = e.id → d = e := fun d hd h => hp.eq_of_id_eq hd he h
  unfold Index.isPartName
  constructor
  · intro h
    split at h
    · rename_i hparent
      obtain ⟨hq, -⟩ := (hp.parent?_eq_some_iff he).1 hparent
      refine ⟨_, hq, congrArg some (hsame _ ?_ (by simpa using h))⟩
      exact mem_nodes_of_within hq (.child (by simp [Expr.children]))
    · rename_i hparent
      obtain ⟨hq, -⟩ := (hp.parent?_eq_some_iff he).1 hparent
      refine ⟨_, hq, congrArg some (hsame _ ?_ (by simpa using h))⟩
      exact mem_nodes_of_within hq (.child (by simp [Expr.children]))
    · cases h
  · rintro ⟨q, hq, hname⟩
    have hchild := Expr.mem_children_of_partName? hname
    rw [(hp.parent?_eq_some_iff he).2 ⟨hq, hchild⟩]
    unfold Expr.partName? at hname
    split at hname <;> cases hname <;> simp

end Program

end ScriptFold
