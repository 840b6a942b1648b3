import Mathlib.Data.List.Nodup
import Mathlib.Data.List.Perm.Basic
import ScriptFold.Index
import ScriptFold.Proofs.Expr.Ids
import ScriptFold.Proofs.Expr.Within
import ScriptFold.Proofs.Grammar.Numbering

/-!
The nodes of a program.

A program lists its nodes; what lies within a node of a program is a node of the program. Where no
two nodes have the same identity, the identity determines the node. Programs that were read from a
text are of this kind.
-/

namespace ScriptFold

namespace Expr

theorem sizeOf_lt_of_mem_children {d e : Expr} (h : d ∈ e.children) : sizeOf d < sizeOf e := by
  cases e with
  | null | bool | number | string | ident | invalid => cases h
  | array n es =>
    obtain ⟨e, he, rfl⟩ := List.mem_filterMap.1 h
    have hsize := List.sizeOf_lt_of_mem he
    simp only [Option.some.sizeOf_spec, array.sizeOf_spec] at hsize ⊢
    omega
  | object n ms =>
    have hsize : sizeOf d < sizeOf ms := List.sizeOf_lt_of_mem h
    simp only [object.sizeOf_spec]
    omega
  | sequence n es =>
    have hsize : sizeOf d < sizeOf es := List.sizeOf_lt_of_mem h
    simp only [sequence.sizeOf_spec]
    omega
  | call n f xs o =>
    rcases List.mem_cons.1 h with rfl | h
    · simp only [call.sizeOf_spec]
      omega
    · have hsize : sizeOf d < sizeOf xs := List.sizeOf_lt_of_mem h
      simp only [call.sizeOf_spec]
      omega
  | _ =>
    simp only [children, List.mem_cons, List.not_mem_nil, or_false] at h
    rcases h with rfl | rfl | rfl <;> decreasing_tactic

theorem Within.sizeOf_le {d e : Expr} (h : d.Within e) : sizeOf d ≤ sizeOf e := by
  induction h with
  | refl => exact Nat.le_refl _
  | step hb _ ih =>
    have hlt := sizeOf_lt_of_mem_children hb
    omega

/-- `Below d e`: the node `d` lies within a child of the node `e`. -/
def Below (d e : Expr) : Prop := ∃ c ∈ e.children, d.Within c

theorem Below.of_mem_children {d e : Expr} (h : d ∈ e.children) : d.Below e := ⟨d, h, .refl⟩

theorem Below.within {d e : Expr} (h : d.Below e) : d.Within e := by
  obtain ⟨c, hc, hd⟩ := h
  exact .step hc hd

theorem Below.of_within {c d e : Expr} (h : d.Below e) (hc : c.Within d) : c.Below e := by
  obtain ⟨b, hb, hd⟩ := h
  exact ⟨b, hb, hc.trans hd⟩

theorem Below.sizeOf_lt {d e : Expr} (h : d.Below e) : sizeOf d < sizeOf e := by
  obtain ⟨c, hc, hd⟩ := h
  exact Nat.lt_of_le_of_lt hd.sizeOf_le (sizeOf_lt_of_mem_children hc)

theorem Below.ne {d e : Expr} (h : d.Below e) : d ≠ e := by
  rintro rfl
  exact Nat.lt_irrefl _ h.sizeOf_lt

theorem within_iff {d e : Expr} : d.Within e ↔ d = e ∨ d.Below e := by
  constructor
  · intro h
    cases h with
    | refl => exact .inl rfl
    | step hb h => exact .inr ⟨_, hb, h⟩
  · rintro (rfl | h)
    · exact .refl
    · exact h.within

/-- Induction on a node and all nodes below it. -/
theorem below_induction {P : Expr → Prop} (h : ∀ e : Expr, (∀ d : Expr, d.Below e → P d) → P e)
    (e : Expr) : P e :=
  h e fun d hd =>
    have := hd.sizeOf_lt
    below_induction h d
termination_by sizeOf e

/-! ## Lists of nodes -/

def nodes (e : Expr) : List Expr := (e.withParents none).map Prod.fst

theorem map_fst_withParents (parent : Option Expr) (e : Expr) :
    (e.withParents parent).map Prod.fst = e.nodes := by
  cases e <;> rfl

theorem withParentsAll_eq (parent : Expr) (es : List Expr) :
    withParentsAll parent es = es.flatMap (withParents (some parent)) := by
  induction es with
  | nil => rfl
  | cons e rest ih => simp only [withParentsAll, ih, List.flatMap_cons]

theorem withParentsElements_eq (parent : Expr) (es : List (Option Expr)) :
    withParentsElements parent es =
      (es.filterMap fun e => e).flatMap (withParents (some parent)) := by
  induction es with
  | nil => rfl
  | cons e rest ih =>
    cases e <;> simp only [withParentsElements, ih, List.filterMap_cons, List.flatMap_cons]

theorem withParents_eq (parent : Option Expr) (e : Expr) :
    e.withParents parent = (e, parent) :: e.children.flatMap (withParents (some e)) := by
  cases e <;> simp only [withParents, children, withParentsAll_eq, withParentsElements_eq,
    List.flatMap_cons, List.flatMap_nil, List.append_nil, List.cons_append, List.append_assoc]

theorem nodes_eq (e : Expr) : e.nodes = e :: e.children.flatMap nodes := by
  rw [← map_fst_withParents none e, withParents_eq, List.map_cons, List.map_flatMap]
  simp only [map_fst_withParents]

theorem mem_nodes_iff {d e : Expr} : d ∈ e.nodes ↔ d.Within e := by
  induction e using below_induction with
  | h e ih =>
    rw [nodes_eq, List.mem_cons, List.mem_flatMap, within_iff]
    refine or_congr_right (exists_congr fun c => and_congr_right fun hc => ?_)
    exact ih c (.of_mem_children hc)

theorem idsAll_eq (es : List Expr) : idsAll es = es.flatMap ids := by
  induction es with
  | nil => rfl
  | cons e rest ih => simp only [idsAll, ih, List.flatMap_cons]

theorem idsElements_eq (es : List (Option Expr)) :
    idsElements es = (es.filterMap fun e => e).flatMap ids := by
  induction es with
  | nil => rfl
  | cons e rest ih =>
    cases e <;> simp only [idsElements, ih, List.filterMap_cons, List.flatMap_cons]

theorem ids_eq (e : Expr) : e.ids = e.children.flatMap ids ++ [e.id] := by
  cases e <;> simp only [ids, children, id, node, idsAll_eq, idsElements_eq, List.flatMap_cons,
    List.flatMap_nil, List.append_nil, List.nil_append, List.append_assoc]

/-- The two lists of identities differ in their order only. -/
theorem perm_ids (e : Expr) : (e.nodes.map id).Perm e.ids := by
  induction e using below_induction with
  | h e ih =>
    rw [nodes_eq, ids_eq, List.map_cons, List.map_flatMap]
    refine List.Perm.trans ?_ (List.perm_append_singleton e.id _).symm
    exact (List.Perm.flatMap_left e.children fun c hc => ih c (.of_mem_children hc)).cons e.id

theorem mem_ids_of_within {d e : Expr} (h : d.Within e) : d.id ∈ e.ids :=
  e.perm_ids.mem_iff.1 (List.mem_map_of_mem (mem_nodes_iff.2 h))

theorem ids_sublist_of_within {d e : Expr} (h : d.Within e) : d.ids.Sublist e.ids := by
  induction h with
  | refl => exact .refl _
  | @step b e hb _ ih =>
    rw [ids_eq e]
    exact (ih.trans (List.sublist_flatten_of_mem (List.mem_map_of_mem hb))).trans
      (List.sublist_append_left _ _)

def assigned? : Expr → Option String
  | assign _ .simple (ident _ name) _ => some name
  | _ => none

end Expr

/-! ## Programs -/

def Entry.link (entry : Entry) : Expr × Option Expr := (entry.expr, entry.parent)

theorem Expr.map_link_entries (scopes : List ScopeId) (e : Expr) :
    (e.entries scopes).map Entry.link = e.withParents none := by
  rw [entries, List.map_map]
  exact List.map_id _

namespace Stmt

mutual

/-- The expressions of a statement that hang from no other expression, in source order. -/
def roots : Stmt → List Expr
  | expr _ e => [e]
  | declare _ _ ds => ds.filterMap (·.init)
  | block _ body => rootsAll body
  | importDecl _ _ | empty _ => []

def rootsAll : List Stmt → List Expr
  | [] => []
  | s :: rest => roots s ++ rootsAll rest

end

mutual

theorem map_link_entries (scopes : List ScopeId) (fresh : ScopeId) (stmt : Stmt) :
    (stmt.entries scopes fresh).map Entry.link = stmt.roots.flatMap (Expr.withParents none) := by
  match stmt with
  | .expr _ e => simp only [entries, roots, Expr.map_link_entries, List.flatMap_singleton]
  | .declare _ _ ds =>
    simp only [entries, roots, List.map_flatMap, Expr.map_link_entries]
    induction ds with
    | nil => rfl
    | cons d rest ih =>
      rw [List.flatMap_cons, List.filterMap_cons, ih]
      cases d.init with
      | none => rfl
      | some e => simp
  | .block _ body =>
    simp only [entries, roots]
    exact map_link_entriesAll (fresh :: scopes) (fresh + 1) body
  | .importDecl _ _ | .empty _ => simp only [entries, roots, List.map_nil, List.flatMap_nil]

theorem map_link_entriesAll (scopes : List ScopeId) (fresh : ScopeId) (body : List Stmt) :
    (entriesAll scopes fresh body).map Entry.link =
      (rootsAll body).flatMap (Expr.withParents none) := by
  match body with
  | [] => simp only [entriesAll, rootsAll, List.map_nil, List.flatMap_nil]
  | stmt :: rest =>
    simp only [entriesAll, rootsAll, List.map_append, List.flatMap_append]
    rw [map_link_entries scopes fresh stmt, map_link_entriesAll scopes (fresh + stmt.blocks) rest]

end

mutual

theorem ids_eq_roots (stmt : Stmt) : stmt.ids = stmt.roots.flatMap Expr.ids := by
  match stmt with
  | .expr _ e => simp only [ids, roots, List.flatMap_singleton]
  | .declare _ _ ds =>
    simp only [ids, roots]
    induction ds with
    | nil => rfl
    | cons d rest ih =>
      rw [List.flatMap_cons, List.filterMap_cons, ih]
      cases d.init <;> simp
  | .block _ body =>
    simp only [ids, roots]
    exact idsAll_eq_roots body
  | .importDecl _ _ | .empty _ => simp only [ids, roots, List.flatMap_nil]

theorem idsAll_eq_roots (body : List Stmt) : idsAll body = (rootsAll body).flatMap Expr.ids := by
  match body with
  | [] => simp only [idsAll, rootsAll, List.flatMap_nil]
  | stmt :: rest =>
    simp only [idsAll, rootsAll, List.flatMap_append]
    rw [ids_eq_roots stmt, idsAll_eq_roots rest]

end

end Stmt

namespace Program

def nodes (p : Program) : List Expr := (Index.ofProgram p).entries.map Entry.expr

/-- No two nodes have the same identity. An evaluator knows nodes by their identities only, so it
relies on this; readers of source texts provide it (`distinct_parseProgram`). -/
def Distinct (p : Program) : Prop := (p.nodes.map Expr.id).Nodup

instance (p : Program) : Decidable p.Distinct :=
  inferInstanceAs (Decidable (p.nodes.map Expr.id).Nodup)

variable {p : Program} {d e : Expr}

/-- The expressions of a program that hang from no other expression, in source order. -/
def roots (p : Program) : List Expr := Stmt.rootsAll p.body

theorem map_link_entries (p : Program) :
    (Index.ofProgram p).entries.map Entry.link = p.roots.flatMap (Expr.withParents none) :=
  Stmt.map_link_entriesAll [0] 1 p.body

theorem nodes_eq (p : Program) : p.nodes = p.roots.flatMap Expr.nodes := by
  have h := congrArg (List.map Prod.fst) p.map_link_entries
  rw [List.map_map, List.map_flatMap] at h
  exact h

theorem mem_nodes_iff : d ∈ p.nodes ↔ ∃ root ∈ p.roots, d.Within root := by
  simp only [nodes_eq, List.mem_flatMap, Expr.mem_nodes_iff]

theorem mem_nodes_of_within (he : e ∈ p.nodes) (h : d.Within e) : d ∈ p.nodes := by
  obtain ⟨root, hroot, he⟩ := mem_nodes_iff.1 he
  exact mem_nodes_iff.2 ⟨root, hroot, h.trans he⟩

/-- The two lists of identities of a program differ in their order only. -/
theorem perm_ids (p : Program) : (p.nodes.map Expr.id).Perm (Stmt.idsAll p.body) := by
  rw [nodes_eq, List.map_flatMap, Stmt.idsAll_eq_roots]
  exact List.Perm.flatMap_left p.roots fun e _ => e.perm_ids

theorem Distinct.nodup_ids (hp : p.Distinct) (he : e ∈ p.nodes) : e.ids.Nodup := by
  obtain ⟨root, hroot, hwithin⟩ := mem_nodes_iff.1 he
  have hids : (p.roots.flatMap Expr.ids).Nodup := by
    rw [roots, ← Stmt.idsAll_eq_roots]
    exact p.perm_ids.nodup_iff.1 hp
  have hsub := List.sublist_flatten_of_mem (List.mem_map_of_mem (f := Expr.ids) hroot)
  exact hids.sublist ((Expr.ids_sublist_of_within hwithin).trans hsub)

theorem Distinct.eq_of_id_eq (hp : p.Distinct) (hd : d ∈ p.nodes) (he : e ∈ p.nodes)
    (h : d.id = e.id) : d = e :=
  List.inj_on_of_nodup_map hp hd he h

theorem Distinct.id_ne_of_below (hp : p.Distinct) (he : e ∈ p.nodes) (hd : d.Below e) :
    d.id ≠ e.id := by
  intro h
  exact hd.ne (hp.eq_of_id_eq (mem_nodes_of_within he hd.within) he h)

theorem mem_nodes_ofExpr : d ∈ (ofExpr e).nodes ↔ d.Within e := by
  simp [mem_nodes_iff, roots, ofExpr, Stmt.rootsAll, Stmt.roots]

/-- In a program that was read from a text no two nodes have the same identity. -/
theorem distinct_parseProgram (source : String) : (parseProgram source).value.Distinct := by
  have hids := (Grammar.parseProgram_numbered source).nodup
  exact (perm_ids _).nodup_iff.2 hids

end Program

end ScriptFold
