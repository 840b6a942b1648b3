import ScriptFold.Expr.Slot
import ScriptFold.Proofs.Index.Places

/-!
An index is the tree.

An index lists the nodes of a program with what they hang from, and a node tells what stands in
each of its slots. In a program whose nodes have different identities both agree with the tree: the
identities lead to the nodes and to their parents, and the slots of a node hold its children.
-/

namespace ScriptFold

/-! ## Slots -/

/-- What a slot holds, place by place. -/
def SlotContent.places : SlotContent → List (Option Expr)
  | single e => [some e]
  | list es => es

namespace Expr

/-- The children of a node, place by place. Only the places of an array may be holes. -/
def places : Expr → List (Option Expr)
  | array _ es => es
  | e => e.children.map some

/-- What stands in a slot, place by place; nothing where the node has no such slot. -/
def placesAt (e : Expr) (slot : Slot) : List (Option Expr) :=
  match e.get slot with
  | .ok content => content.places
  | .error _ => []

variable {d e : Expr}

theorem filterMap_places (e : Expr) : e.places.filterMap (fun e => e) = e.children := by
  cases e with
  | array n es => rfl
  | _ => simp [places]

/-- Looking up all keys in their order gives the list, if its keys are in this order. -/
theorem flatMap_lookup {α β γ : Type} [DecidableEq α] {ks : List α} (hks : ks.Nodup)
    {xs : List (α × β)} (h : (xs.map Prod.fst).Sublist ks) (f : β → List γ) :
    ks.flatMap (fun k => ((xs.lookup k).map f).getD []) = xs.flatMap fun x => f x.2 := by
  induction ks generalizing xs with
  | nil =>
    obtain rfl : xs = [] := by simpa using h
    rfl
  | cons k ks ih =>
    obtain ⟨hk, hrestKeys⟩ := List.nodup_cons.1 hks
    rw [List.flatMap_cons]
    cases xs with
    | nil => simp
    | cons x xs =>
      rw [List.map_cons] at h
      by_cases heq : x.1 = k
      · -- The other keys are looked up in the rest of the list.
        subst heq
        have hrest := ih hrestKeys (List.Sublist.of_cons_cons h)
        have hskip : ∀ k ∈ ks,
            (((x :: xs).lookup k).map f).getD [] = ((xs.lookup k).map f).getD [] := by
          intro k hmem
          have hne : k ≠ x.1 := fun heq => hk (heq ▸ hmem)
          rw [List.lookup_cons, beq_false_of_ne hne]
        rw [List.flatMap_congr hskip, hrest, List.lookup_cons_self]
        rfl
      · have hrest : ((x :: xs).map Prod.fst).Sublist ks := by
          cases h with
          | cons _ h => exact h
          | cons_cons _ h => exact absurd rfl heq
        have hnone : (x :: xs).lookup k = none := by
          refine List.lookup_eq_none_iff.2 fun y hy => bne_iff_ne.2 ?_
          rintro rfl
          exact hk (hrest.subset (List.mem_map_of_mem hy))
        rw [hnone, ih hrestKeys hrest]
        rfl

theorem placesAt_eq (e : Expr) (slot : Slot) :
    e.placesAt slot = ((e.slots.lookup slot).map SlotContent.places).getD [] := by
  unfold placesAt get
  cases e.slots.lookup slot <;> rfl

theorem flatMap_placesAt (e : Expr) : Slot.all.flatMap e.placesAt = e.places := by
  have hkeys : (e.slots.map Prod.fst).Sublist Slot.all := by
    cases e <;> simp only [slots, List.map_cons, List.map_nil] <;> decide
  have hall : Slot.all.Nodup := by decide
  rw [funext (placesAt_eq e), flatMap_lookup hall hkeys]
  cases e <;> simp [slots, places, children, SlotContent.places]

theorem mem_children_of_get {slot : Slot} {content : SlotContent} (h : e.get slot = .ok content)
    (hd : some d ∈ content.places) : d ∈ e.children := by
  have hslot : slot ∈ Slot.all := by cases slot <;> decide
  have hplace : some d ∈ e.placesAt slot := by
    rw [placesAt, h]
    exact hd
  rw [← filterMap_places, ← flatMap_placesAt]
  exact List.mem_filterMap.2 ⟨some d, List.mem_flatMap.2 ⟨slot, hslot, hplace⟩, rfl⟩

end Expr

namespace Program

def HasNode (p : Program) (e : Expr) : Prop := ∃ root ∈ p.roots, e.Within root

variable {p : Program}

theorem hasNode_iff {e : Expr} : p.HasNode e ↔ e ∈ p.nodes := mem_nodes_iff.symm

theorem Distinct.node?_eq_some_iff (hp : p.Distinct) {id : NodeId} {e : Expr} :
    (Index.ofProgram p).node? id = some e ↔ e ∈ p.nodes ∧ e.id = id := by
  constructor
  · intro h
    obtain ⟨entry, hentry, rfl⟩ := Option.map_eq_some_iff.1 h
    refine ⟨List.mem_map_of_mem (List.mem_of_find?_eq_some hentry), ?_⟩
    simpa using List.find?_some hentry
  · rintro ⟨he, rfl⟩
    obtain ⟨entry, hentry, rfl⟩ := exists_entry he
    rw [Index.node?, hp.entry_of_mem hentry, Option.map_some]

/-- **An index is the tree.** Let the nodes of a program have different identities. Then the index
finds a node by an identity exactly if the program has a node with this identity, and it lists as
many nodes as there are. It finds as the parent of a node the one that has the node as a child, and
none exactly for the expressions of statements and the initial values of declarations. What stands
in a slot of a node has this node as its parent. The slots of a node, in their order, hold its
children in order, with holes where an array has them. -/
theorem index_of_tree (hp : (Stmt.idsAll p.body).Nodup) :
    (∀ id e, (Index.ofProgram p).node? id = some e ↔ p.HasNode e ∧ e.id = id) ∧
    (Index.ofProgram p).entries.length = (Stmt.idsAll p.body).length ∧
    ∀ e, p.HasNode e →
      (∀ q, (Index.ofProgram p).parent? e.id = some q ↔ p.HasNode q ∧ e ∈ q.children) ∧
      ((Index.ofProgram p).parent? e.id = none ↔ e ∈ p.roots) ∧
      (∀ slot content d, e.get slot = .ok content → some d ∈ content.places →
        (Index.ofProgram p).parent? d.id = some e) ∧
      Slot.all.flatMap e.placesAt = e.places ∧
      e.places.filterMap (fun d => d) = e.children := by
  have hdistinct : p.Distinct := p.perm_ids.nodup_iff.2 hp
  simp only [hasNode_iff]
  refine ⟨fun _ _ => hdistinct.node?_eq_some_iff, ?_, fun e he => ⟨fun q => ?_, ?_, ?_, ?_, ?_⟩⟩
  · have hlength := p.perm_ids.length_eq
    rwa [nodes, List.map_map, List.length_map] at hlength
  · exact hdistinct.parent?_eq_some_iff he
  · exact hdistinct.parent?_eq_none_iff he
  · intro slot content d hget hd
    have hchild := Expr.mem_children_of_get hget hd
    exact (hdistinct.parent?_eq_some_iff (mem_nodes_of_within he (.child hchild))).2 ⟨he, hchild⟩
  · exact e.flatMap_placesAt
  · exact e.filterMap_places

/-- In `[, x]` the index finds the array as the parent of `x`, and the slots hold a hole before
`x`. -/
theorem index_of_hole :
    let x : Expr := .ident ⟨1, .nowhere⟩ "x"
    let e : Expr := .array ⟨0, .nowhere⟩ [none, some x]
    let p : Program := .ofExpr e
    (Stmt.idsAll p.body).Nodup ∧ (Index.ofProgram p).node? 1 = some x ∧
      (Index.ofProgram p).parent? 1 = some e ∧ (Index.ofProgram p).parent? 0 = none ∧
      Slot.all.flatMap e.placesAt = [none, some x] := by
  intro x e p
  have hp : (Stmt.idsAll p.body).Nodup := by decide
  have he : p.HasNode e := ⟨e, List.mem_cons_self, .refl⟩
  have hx : p.HasNode x := ⟨e, List.mem_cons_self, .child List.mem_cons_self⟩
  obtain ⟨hnode, -, htree⟩ := index_of_tree hp
  obtain ⟨-, hroot, -, hplaces, -⟩ := htree e he
  obtain ⟨hparent, -⟩ := htree x hx
  exact ⟨hp, (hnode 1 x).2 ⟨hx, rfl⟩, (hparent e).2 ⟨he, List.mem_cons_self⟩,
    hroot.2 List.mem_cons_self, hplaces⟩

end Program

end ScriptFold
