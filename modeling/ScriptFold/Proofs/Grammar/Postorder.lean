import ScriptFold.Proofs.Expr.Nodes

/-!
The nodes of a source text in the order in which they are complete.

A walk that comes to every node after the nodes below it meets the identities in increasing order,
whatever is wrong with the text. The numbering goes on from one text to the next: expressions that
are read with the identities that a program left free have no identity in common with it.
-/

namespace ScriptFold

namespace Expr

/-- The node and all nodes below it, in source order, each after the nodes below it. -/
def postorder (e : Expr) : List Expr :=
  (e.children.attach.flatMap fun ⟨c, _⟩ => postorder c) ++ [e]
termination_by sizeOf e
decreasing_by exact sizeOf_lt_of_mem_children ‹_›

theorem postorder_eq (e : Expr) : e.postorder = e.children.flatMap postorder ++ [e] := by
  rw [postorder, List.flatMap_subtype (g := postorder) fun _ _ => rfl, List.unattach_attach]

theorem mem_postorder_iff {d e : Expr} : d ∈ e.postorder ↔ d.Within e := by
  induction e using below_induction with
  | h e ih =>
    rw [postorder_eq, List.mem_append, List.mem_flatMap, List.mem_singleton, within_iff, or_comm]
    refine or_congr_right (exists_congr fun c => and_congr_right fun hc => ?_)
    exact ih c (.of_mem_children hc)

theorem map_id_postorder (e : Expr) : e.postorder.map id = e.ids := by
  induction e using below_induction with
  | h e ih =>
    rw [postorder_eq, ids_eq, List.map_append, List.map_flatMap, List.map_singleton]
    congr 1
    exact List.flatMap_congr fun c hc => ih c (.of_mem_children hc)

/-- Where the identities increase in this order, a node has a greater one than the nodes below
it. -/
theorem Below.id_lt {d e : Expr} (h : d.Below e) (hids : e.ids.Pairwise (· < ·)) :
    d.id < e.id := by
  obtain ⟨c, hc, hd⟩ := h
  rw [ids_eq] at hids
  obtain ⟨-, -, hlt⟩ := List.pairwise_append.1 hids
  exact hlt d.id (List.mem_flatMap.2 ⟨c, hc, mem_ids_of_within hd⟩) e.id List.mem_cons_self

end Expr

namespace Program

variable {p : Program} {d e : Expr}

/-- The nodes of a program in source order, each after the nodes below it. -/
def postorder (p : Program) : List Expr := p.roots.flatMap Expr.postorder

theorem mem_postorder_iff : d ∈ p.postorder ↔ d ∈ p.nodes := by
  simp only [postorder, mem_nodes_iff, List.mem_flatMap, Expr.mem_postorder_iff]

theorem map_id_postorder (p : Program) : p.postorder.map Expr.id = Stmt.idsAll p.body := by
  rw [postorder, List.map_flatMap, Stmt.idsAll_eq_roots, roots]
  exact List.flatMap_congr fun e _ => e.map_id_postorder

theorem id_lt_of_below (hids : (Stmt.idsAll p.body).Pairwise (· < ·)) (he : e ∈ p.nodes)
    (h : d.Below e) : d.id < e.id := by
  obtain ⟨root, hroot, hwithin⟩ := mem_nodes_iff.1 he
  have hroots : root.ids.Sublist (Stmt.idsAll p.body) := by
    rw [Stmt.idsAll_eq_roots]
    exact List.sublist_flatten_of_mem (List.mem_map_of_mem hroot)
  exact h.id_lt (hids.sublist ((Expr.ids_sublist_of_within hwithin).trans hroots))

end Program

/-- The expressions of some source texts, where each text is numbered from the first identity that
the one before left free, and the first identity that is free after all of them. -/
def parseFragments (firstId : NodeId) : List String → List Expr × NodeId
  | [] => ([], firstId)
  | source :: rest =>
    let read := parseExpression source firstId
    let (more, nextId) := parseFragments read.nextId rest
    (read.value :: more, nextId)

theorem parseFragments_numbered (firstId : NodeId) (sources : List String) :
    Numbered firstId (((parseFragments firstId sources).1.flatMap Expr.postorder).map Expr.id)
      (parseFragments firstId sources).2 := by
  induction sources generalizing firstId with
  | nil => exact .nil (Nat.le_refl _)
  | cons source rest ih =>
    have hone := Grammar.parseExpression_numbered source firstId
    rw [← Expr.map_id_postorder] at hone
    have hrest := ih (parseExpression source firstId).nextId
    simp only [parseFragments, List.flatMap_cons, List.map_append]
    exact hone.append hrest

namespace Grammar

/-- **Identities in the order of completion.** Let a program and an expression be read from any
source texts, numbered from any first identity on.

A walk through all nodes that comes to each node after the nodes below it meets increasing
identities, from the first one on and below the one that is free next; so no two nodes of a program
have the same identity, and a node has a greater one than the nodes below it. Where expressions are
read one after another with the identities that are still free, this holds for all of them
together, also if a program was read before them. -/
theorem identities_increase (source : String) (firstId : NodeId) (fragments : List String) :
    let program := read program source firstId
    let expression := parseExpression source firstId
    let apart := parseFragments firstId fragments
    let after := parseFragments program.nextId fragments
    ((∀ d, d ∈ program.value.postorder ↔ d ∈ program.value.nodes) ∧
      ∀ d, d ∈ expression.value.postorder ↔ d.Within expression.value) ∧
    (Numbered firstId (program.value.postorder.map Expr.id) program.nextId ∧
      Numbered firstId (expression.value.postorder.map Expr.id) expression.nextId) ∧
    (program.value.Distinct ∧
      (∀ d e : Expr, e ∈ program.value.nodes → d.Below e → d.id < e.id) ∧
      ∀ d e : Expr, e.Within expression.value → d.Below e → d.id < e.id) ∧
    Numbered firstId ((apart.1.flatMap Expr.postorder).map Expr.id) apart.2 ∧
    Numbered firstId
      ((program.value.postorder ++ after.1.flatMap Expr.postorder).map Expr.id) after.2 := by
  intro program expression apart after
  have hids : Numbered firstId (Stmt.idsAll program.value.body) program.nextId :=
    (statements_reads false (.ofTokens (tokenize source).tokens firstId)).numbered
  have hexpression : Numbered firstId expression.value.ids expression.nextId :=
    parseExpression_numbered source firstId
  have hprogram : Numbered firstId (program.value.postorder.map Expr.id) program.nextId := by
    rw [Program.map_id_postorder]
    exact hids
  refine ⟨⟨fun d => Program.mem_postorder_iff, fun d => Expr.mem_postorder_iff⟩,
    ⟨hprogram, ?_⟩, ⟨?_, fun d e he h => Program.id_lt_of_below hids.increasing he h,
      fun d e he h => ?_⟩, parseFragments_numbered firstId fragments, ?_⟩
  · rw [Expr.map_id_postorder]
    exact hexpression
  · exact (Program.perm_ids _).nodup_iff.2 hids.nodup
  · exact h.id_lt (hexpression.increasing.sublist (Expr.ids_sublist_of_within he))
  · rw [List.map_append]
    exact hprogram.append (parseFragments_numbered program.nextId fragments)

end Grammar

end ScriptFold
