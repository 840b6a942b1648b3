import ScriptFold.Program

/-!
The identities in a tree.

They are listed in the order in which a reader of tokens completes the nodes: a node comes after
the nodes below it. A tree is numbered between two bounds if this list increases from the first
bound on and stays below the second one.
-/

namespace ScriptFold

namespace Expr

mutual

def ids : Expr → List NodeId
  | null n | bool n _ | number n _ | string n _ | ident n _ | invalid n => [n.id]
  | array n es => idsElements es ++ [n.id]
  | object n ms => idsAll ms ++ [n.id]
  | property n k v _ _ => ids k ++ ids v ++ [n.id]
  | spread n a => ids a ++ [n.id]
  | member n o p _ _ => ids o ++ ids p ++ [n.id]
  | call n f xs _ => ids f ++ idsAll xs ++ [n.id]
  | assign n _ t v => ids t ++ ids v ++ [n.id]
  | binary n _ l r | logical n _ l r => ids l ++ ids r ++ [n.id]
  | unary n _ a => ids a ++ [n.id]
  | conditional n t c a => ids t ++ ids c ++ ids a ++ [n.id]
  | sequence n es => idsAll es ++ [n.id]

def idsAll : List Expr → List NodeId
  | [] => []
  | e :: rest => ids e ++ idsAll rest

def idsElements : List (Option Expr) → List NodeId
  | [] => []
  | none :: rest => idsElements rest
  | some e :: rest => ids e ++ idsElements rest

end

theorem id_mem_ids (e : Expr) : e.id ∈ e.ids := by
  cases e <;> simp [ids, id, node]

end Expr

namespace Stmt

mutual

def ids : Stmt → List NodeId
  | expr _ e => e.ids
  | declare _ _ ds => ds.flatMap fun d => (d.init.map Expr.ids).getD []
  | block _ body => idsAll body
  | importDecl _ _ | empty _ => []

def idsAll : List Stmt → List NodeId
  | [] => []
  | s :: rest => ids s ++ idsAll rest

end

end Stmt

/-! ## Numbering -/

/-- The identities increase from `lo` on and stay below `hi`. -/
structure Numbered (lo : Nat) (ids : List Nat) (hi : Nat) : Prop where
  le : lo ≤ hi
  increasing : ids.Pairwise (· < ·)
  bounds : ∀ i ∈ ids, lo ≤ i ∧ i < hi

namespace Numbered

variable {lo mid hi : Nat} {is js : List Nat}

theorem nil (h : lo ≤ hi) : Numbered lo [] hi := ⟨h, .nil, by simp⟩

theorem append (h₁ : Numbered lo is mid) (h₂ : Numbered mid js hi) : Numbered lo (is ++ js) hi where
  le := Nat.le_trans h₁.le h₂.le
  increasing := by
    rw [List.pairwise_append]
    refine ⟨h₁.increasing, h₂.increasing, fun i hi j hj => ?_⟩
    have hi := (h₁.bounds i hi).2
    have hj := (h₂.bounds j hj).1
    omega
  bounds i h := by
    have h₃ := h₁.le
    have h₄ := h₂.le
    rcases List.mem_append.1 h with h | h
    · have h₅ := h₁.bounds i h
      omega
    · have h₅ := h₂.bounds i h
      omega

theorem single (n : Nat) : Numbered n [n] (n + 1) := ⟨by omega, by simp, by simp⟩

theorem snoc (h : Numbered lo is mid) : Numbered lo (is ++ [mid]) (mid + 1) :=
  h.append (single mid)

theorem nodup (h : Numbered lo is hi) : is.Nodup :=
  h.increasing.imp fun hij => Nat.ne_of_lt hij

end Numbered

end ScriptFold
