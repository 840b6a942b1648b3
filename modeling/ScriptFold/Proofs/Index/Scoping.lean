import ScriptFold.Proofs.Index.Places

/-!
What a name means.

A name that is read in nested blocks means the last `let` or `const` of it among the statements of
the innermost block that has one; if no block has one, it means the last declaration of it for the
program as a whole, among the imports and the `var` declarations at any depth and the `let` and
`const` declarations of the top level. An index numbers the blocks and tags declarations with these
numbers; the numbers of a block and of the blocks in it are used nowhere else, so the declarations
with the number of a block are its own (`Located`).
-/

namespace ScriptFold

/-! ## Declarations in a tree -/

/-- What one variable of a declaration declares. -/
def Declarator.binding (kind : VarKind) (d : Declarator) : Binding :=
  ⟨d.name.text, .var kind (d.init.map Expr.id), d.name.span⟩

def Import.bindings (decl : Import) : List Binding :=
  decl.specifiers.map fun s => ⟨s.name.text, .imported decl.source s.imported, s.name.span⟩

namespace Stmt

def lexical : Stmt → List Binding
  | declare _ .constVar ds => ds.map (·.binding .constVar)
  | declare _ .letVar ds => ds.map (·.binding .letVar)
  | declare _ .varVar _ | importDecl _ _ | block _ _ | expr _ _ | empty _ => []

mutual

def hoisted : Stmt → List Binding
  | importDecl _ decl => decl.bindings
  | declare _ .varVar ds => ds.map (·.binding .varVar)
  | block _ body => hoistedAll body
  | declare _ .constVar _ | declare _ .letVar _ | expr _ _ | empty _ => []

def hoistedAll : List Stmt → List Binding
  | [] => []
  | s :: rest => hoisted s ++ hoistedAll rest

end

/-- The expressions of the statement itself, not of blocks in it. -/
def ownRoots : Stmt → List Expr
  | expr _ e => [e]
  | declare _ _ ds => ds.filterMap (·.init)
  | importDecl _ _ | block _ _ | empty _ => []

end Stmt

/-- The last declaration of a name. -/
def lastNamed (x : String) (bindings : List Binding) : Option Binding :=
  (bindings.filter (·.name = x)).getLast?

namespace Program

variable (p : Program)

/-- The statements of blocks that stand in each other, innermost first; the last of them stands
among the statements of the program. -/
inductive Nested : List (List Stmt) → Prop
  | top : Nested []
  | inside {blocks : List (List Stmt)} {span : Span} {body : List Stmt} (h : Nested blocks)
    (hblock : .block span body ∈ blocks.headD p.body) : Nested (body :: blocks)

/-- The node belongs to a statement of the innermost one of nested blocks, or of the program if there
are no blocks. -/
def StandsIn (blocks : List (List Stmt)) (e : Expr) : Prop :=
  p.Nested blocks ∧ ∃ s ∈ blocks.headD p.body, ∃ root ∈ s.ownRoots, e.Within root

/-- What a name means in nested blocks. -/
def meaning (blocks : List (List Stmt)) (x : String) : Option Binding :=
  (blocks.findSome? fun body => lastNamed x (body.flatMap Stmt.lexical)).or
    (lastNamed x (p.body.flatMap fun s => s.hoisted ++ s.lexical))

end Program

namespace Stmt

mutual

/-- The blocks of a statement, each with the block around it. -/
def outers (scope fresh : ScopeId) : Stmt → List (ScopeId × ScopeId)
  | block _ body => (fresh, scope) :: outersAll fresh (fresh + 1) body
  | importDecl _ _ | declare _ _ _ | expr _ _ | empty _ => []

def outersAll (scope fresh : ScopeId) : List Stmt → List (ScopeId × ScopeId)
  | [] => []
  | s :: rest => outers scope fresh s ++ outersAll scope (fresh + blocks s) rest

end

end Stmt

namespace Program

variable (p : Program)

def outer? (n : ScopeId) : Option ScopeId := (Stmt.outersAll 0 1 p.body).lookup n

/-- The way outwards from a block, as long as there is a block around. -/
inductive Outwards : ScopeId → List ScopeId → Prop
  | top {n : ScopeId} (h : p.outer? n = none) : Outwards n [n]
  | step {n outer : ScopeId} {ns : List ScopeId} (h : p.outer? n = some outer)
    (hrest : Outwards outer ns) : Outwards n (n :: ns)

end Program

/-! ## Declarations with numbers -/

/-- What is declared for one block, in source order. -/
def declaredIn (n : ScopeId) (ds : List Declaration) : List Binding :=
  (ds.filter (·.scope = n)).map (·.binding)

section

variable {n scope fresh : Nat} {ds ds' : List Declaration}

theorem declaredIn_append : declaredIn n (ds ++ ds') = declaredIn n ds ++ declaredIn n ds' := by
  rw [declaredIn, List.filter_append, List.map_append, declaredIn, declaredIn]

theorem declaredIn_eq_nil (h : ∀ d ∈ ds, d.scope ≠ n) : declaredIn n ds = [] := by
  rw [declaredIn, List.filter_eq_nil_iff.2 fun d hd => by simpa using h d hd, List.map_nil]

theorem declaredIn_of_scope {k : Nat} (h : ∀ d ∈ ds, d.scope = k) :
    declaredIn n ds = if k = n then ds.map (·.binding) else [] := by
  split
  · rename_i hk
    rw [declaredIn, List.filter_eq_self.2 fun d hd => by simp [h d hd, hk]]
  · rename_i hk
    exact declaredIn_eq_nil fun d hd hn => hk ((h d hd).symm.trans hn)

/-- An index finds the last declaration of a name in a block. -/
theorem Index.declared?_eq (index : Index) (x : String) (n : ScopeId) :
    index.declared? x n = lastNamed x (declaredIn n index.declarations) := by
  unfold declared? lastNamed declaredIn
  dsimp only
  rw [← List.head?_filter, List.filter_reverse, List.head?_reverse, List.filter_map,
    List.filter_filter, List.getLast?_map]
  simp only [Function.comp_def, Bool.and_comm]

namespace Stmt

@[simp] theorem blocksAll_append (as bs : List Stmt) :
    blocksAll (as ++ bs) = blocksAll as + blocksAll bs := by
  induction as with
  | nil => simp [blocksAll]
  | cons a rest ih => simp only [List.cons_append, blocksAll, ih, Nat.add_assoc]

/-- What is listed statement by statement, with the numbers that are free before each of them. -/
theorem append_of_cons {α : Type} {g : Nat → Stmt → List α} {f : Nat → List Stmt → List α}
    (hnil : ∀ fresh, f fresh [] = [])
    (hcons : ∀ fresh stmt rest, f fresh (stmt :: rest) = g fresh stmt ++ f (fresh + stmt.blocks) rest)
    (as bs : List Stmt) : f fresh (as ++ bs) = f fresh as ++ f (fresh + blocksAll as) bs := by
  induction as generalizing fresh with
  | nil => simp [hnil, blocksAll]
  | cons a rest ih =>
    rw [List.cons_append, hcons, hcons, ih, blocksAll, List.append_assoc, Nat.add_assoc]

theorem declarationsAll_append (as bs : List Stmt) :
    declarationsAll scope fresh (as ++ bs) =
      declarationsAll scope fresh as ++ declarationsAll scope (fresh + blocksAll as) bs :=
  append_of_cons (fun _ => by rw [declarationsAll]) (fun _ _ _ => by rw [declarationsAll]) as bs

theorem entriesAll_append (scopes : List ScopeId) (as bs : List Stmt) :
    entriesAll scopes fresh (as ++ bs) =
      entriesAll scopes fresh as ++ entriesAll scopes (fresh + blocksAll as) bs :=
  append_of_cons (fun _ => by rw [entriesAll]) (fun _ _ _ => by rw [entriesAll]) as bs

theorem outersAll_append (as bs : List Stmt) :
    outersAll scope fresh (as ++ bs) =
      outersAll scope fresh as ++ outersAll scope (fresh + blocksAll as) bs :=
  append_of_cons (fun _ => by rw [outersAll]) (fun _ _ _ => by rw [outersAll]) as bs

mutual

theorem scope_of_mem (scope fresh : Nat) (stmt : Stmt) {d : Declaration} {n : Nat}
    (h : d ∈ stmt.declarations scope fresh) (hn : d.scope = n) :
    n = 0 ∨ n = scope ∨ fresh ≤ n ∧ n < fresh + stmt.blocks := by
  match stmt with
  | .importDecl _ decl =>
    simp only [declarations, importDeclarations] at h
    obtain ⟨s, -, rfl⟩ := List.mem_map.1 h
    exact .inl hn.symm
  | .declare _ kind ds =>
    simp only [declarations] at h
    obtain ⟨d, -, rfl⟩ := List.mem_map.1 h
    cases kind with
    | varVar => exact .inl hn.symm
    | constVar | letVar => exact .inr (.inl hn.symm)
  | .block _ body =>
    simp only [declarations] at h
    simp only [blocks]
    rcases scope_of_memAll fresh (fresh + 1) body h hn with h | h | h
    · exact .inl h
    · omega
    · omega
  | .expr _ _ | .empty _ =>
    simp only [declarations] at h
    cases h

theorem scope_of_memAll (scope fresh : Nat) (body : List Stmt) {d : Declaration} {n : Nat}
    (h : d ∈ declarationsAll scope fresh body) (hn : d.scope = n) :
    n = 0 ∨ n = scope ∨ fresh ≤ n ∧ n < fresh + blocksAll body := by
  match body with
  | [] =>
    simp only [declarationsAll] at h
    cases h
  | stmt :: rest =>
    simp only [declarationsAll, List.mem_append] at h
    simp only [blocksAll]
    rcases h with h | h
    · rcases scope_of_mem scope fresh stmt h hn with h | h | h
      · exact .inl h
      · exact .inr (.inl h)
      · omega
    · rcases scope_of_memAll scope (fresh + stmt.blocks) rest h hn with h | h | h
      · exact .inl h
      · exact .inr (.inl h)
      · omega

end

theorem declaredIn_elsewhere (body : List Stmt) (hzero : n ≠ 0) (hscope : n ≠ scope)
    (h : n < fresh ∨ fresh + blocksAll body ≤ n) :
    declaredIn n (declarationsAll scope fresh body) = [] := by
  refine declaredIn_eq_nil fun d hd hn => ?_
  rcases scope_of_memAll scope fresh body hd hn with h | h | h <;> omega

theorem map_binding_variables (kind : VarKind) (ds : List Declarator) :
    (ds.map (variableDeclaration scope kind)).map (·.binding) = ds.map (·.binding kind) := by
  rw [List.map_map]
  rfl

theorem declaredIn_variables (kind : VarKind) (ds : List Declarator) :
    declaredIn n (ds.map (variableDeclaration scope kind)) =
      if home scope kind = n then ds.map (·.binding kind) else [] := by
  have hscope : ∀ d ∈ ds.map (variableDeclaration scope kind), d.scope = home scope kind := by
    intro d hd
    obtain ⟨d, -, rfl⟩ := List.mem_map.1 hd
    rfl
  rw [declaredIn_of_scope hscope, map_binding_variables]

theorem declaredIn_import (decl : Import) :
    declaredIn n (importDeclarations decl) = if 0 = n then decl.bindings else [] := by
  have hscope : ∀ d ∈ importDeclarations decl, d.scope = 0 := by
    intro d hd
    obtain ⟨s, -, rfl⟩ := List.mem_map.1 hd
    rfl
  rw [declaredIn_of_scope hscope, importDeclarations, List.map_map]
  rfl

theorem declaredIn_own (hscope : scope ≠ 0) (hfresh : scope < fresh) (body : List Stmt) :
    declaredIn scope (declarationsAll scope fresh body) = body.flatMap lexical := by
  induction body generalizing fresh with
  | nil => rfl
  | cons stmt rest ih =>
    rw [declarationsAll, declaredIn_append, ih (by omega), List.flatMap_cons]
    congr 1
    cases stmt with
    | importDecl _ decl =>
      rw [declarations, declaredIn_import, if_neg (Ne.symm hscope)]
      rfl
    | declare _ kind ds =>
      rw [declarations, declaredIn_variables]
      cases kind with
      | varVar => exact if_neg (Ne.symm hscope)
      | constVar | letVar => exact if_pos rfl
    | block _ body =>
      rw [declarations, declaredIn_elsewhere body hscope (by omega) (.inl (by omega))]
      rfl
    | expr | empty => rfl

mutual

theorem declaredIn_zero (scope fresh : Nat) (hscope : scope ≠ 0) (hfresh : 0 < fresh)
    (stmt : Stmt) :
    declaredIn 0 (stmt.declarations scope fresh) = stmt.hoisted := by
  match stmt with
  | .importDecl _ decl => rw [declarations, declaredIn_import, if_pos rfl, hoisted]
  | .declare _ .varVar ds =>
    rw [declarations, declaredIn_variables, if_pos (by rfl), hoisted]
  | .declare _ .constVar ds | .declare _ .letVar ds =>
    rw [declarations, declaredIn_variables, if_neg (by exact hscope), hoisted]
  | .block _ body =>
    rw [declarations, hoisted]
    exact declaredIn_zeroAll fresh (fresh + 1) (by omega) (by omega) body
  | .expr _ _ | .empty _ =>
    rw [declarations, hoisted]
    rfl

theorem declaredIn_zeroAll (scope fresh : Nat) (hscope : scope ≠ 0) (hfresh : 0 < fresh)
    (body : List Stmt) :
    declaredIn 0 (declarationsAll scope fresh body) = hoistedAll body := by
  match body with
  | [] =>
    rw [declarationsAll, hoistedAll]
    rfl
  | stmt :: rest =>
    rw [declarationsAll, declaredIn_append, hoistedAll, declaredIn_zero scope fresh hscope hfresh stmt,
      declaredIn_zeroAll scope (fresh + stmt.blocks) hscope (by omega) rest]

end

theorem declaredIn_program (hfresh : 0 < fresh) (body : List Stmt) :
    declaredIn 0 (declarationsAll 0 fresh body) =
      body.flatMap fun s => s.hoisted ++ s.lexical := by
  induction body generalizing fresh with
  | nil => rfl
  | cons stmt rest ih =>
    rw [declarationsAll, declaredIn_append, ih (by omega), List.flatMap_cons]
    congr 1
    cases stmt with
    | importDecl _ decl =>
      rw [declarations, declaredIn_import, if_pos rfl, hoisted, lexical, List.append_nil]
    | declare _ kind ds =>
      rw [declarations, declaredIn_variables, if_pos (by cases kind <;> rfl)]
      cases kind <;> simp only [hoisted, lexical, List.append_nil, List.nil_append]
    | block _ body =>
      rw [declarations, declaredIn_zeroAll fresh (fresh + 1) (by omega) (by omega), hoisted,
        lexical, List.append_nil]
    | expr | empty =>
      rw [declarations, hoisted, lexical]
      rfl

mutual

theorem outers_bounds (scope fresh : Nat) (hfresh : scope < fresh) (stmt : Stmt) {n outer : Nat}
    (h : (n, outer) ∈ stmt.outers scope fresh) :
    fresh ≤ n ∧ n < fresh + stmt.blocks ∧ outer < n := by
  match stmt with
  | .block _ body =>
    simp only [outers, List.mem_cons, Prod.mk.injEq] at h
    simp only [blocks]
    rcases h with ⟨rfl, rfl⟩ | h
    · omega
    · have := outersAll_bounds fresh (fresh + 1) (by omega) body h
      omega
  | .importDecl _ _ | .declare _ _ _ | .expr _ _ | .empty _ =>
    simp only [outers] at h
    cases h

/-- The blocks of some statements have the numbers from the first free one on, and a block around
another one has the smaller number. -/
theorem outersAll_bounds (scope fresh : Nat) (hfresh : scope < fresh) (body : List Stmt)
    {n outer : Nat} (h : (n, outer) ∈ outersAll scope fresh body) :
    fresh ≤ n ∧ n < fresh + blocksAll body ∧ outer < n := by
  match body with
  | [] =>
    simp only [outersAll] at h
    cases h
  | stmt :: rest =>
    simp only [outersAll, List.mem_append] at h
    simp only [blocksAll]
    rcases h with h | h
    · have := outers_bounds scope fresh hfresh stmt h
      omega
    · have := outersAll_bounds scope (fresh + stmt.blocks) (by omega) rest h
      omega

end

theorem lookup_outersAll_elsewhere (body : List Stmt) (hfresh : scope < fresh)
    (h : n < fresh ∨ fresh + blocksAll body ≤ n) : (outersAll scope fresh body).lookup n = none := by
  rw [List.lookup_eq_none_iff]
  rintro ⟨n', outer⟩ hlink
  have := outersAll_bounds scope fresh hfresh body hlink
  rw [bne_iff_ne]
  rintro rfl
  omega

end Stmt

end

namespace Program

/-! ## Nested blocks and their numbers -/

variable {p : Program} {blocks : List (List Stmt)} {e : Expr}

/-- Some statements are those of the block `n`, with the blocks `around` outside it, and their
blocks are numbered from `fresh` on. For this block and the blocks in it, what an index lists is
what the statements give; this is kept from a block to a block in it. -/
structure Located (p : Program) (n : Nat) (around : List ScopeId) (fresh : Nat)
    (body : List Stmt) : Prop where
  lt : n < fresh
  entries : ∀ entry ∈ Stmt.entriesAll (n :: around) fresh body,
    entry ∈ (Index.ofProgram p).entries
  declared : ∀ k, fresh ≤ k → k < fresh + Stmt.blocksAll body →
    declaredIn k (Index.ofProgram p).declarations =
      declaredIn k (Stmt.declarationsAll n fresh body)
  outer : ∀ k, fresh ≤ k → k < fresh + Stmt.blocksAll body →
    p.outer? k = (Stmt.outersAll n fresh body).lookup k
  outwards : p.Outwards n (n :: around)

theorem located_top (p : Program) : Located p 0 [] 1 p.body where
  lt := Nat.zero_lt_one
  entries _ h := h
  declared _ _ _ := rfl
  outer _ _ _ := rfl
  outwards := .top (Stmt.lookup_outersAll_elsewhere p.body Nat.zero_lt_one (.inl Nat.zero_lt_one))

/-- A block in a located one is located, and an index knows what it declares. -/
theorem Located.inside {n fresh : Nat} {around : List ScopeId} {outer body : List Stmt}
    {span : Span} (h : Located p n around fresh outer) (hblock : .block span body ∈ outer) :
    ∃ k, Located p k (n :: around) (k + 1) body ∧
      declaredIn k (Index.ofProgram p).declarations = body.flatMap Stmt.lexical := by
  obtain ⟨front, rest, rfl⟩ := List.append_of_mem hblock
  have hlt := h.lt
  -- The block takes the first number that is free after the statements before it.
  let k := fresh + Stmt.blocksAll front
  have hblocks : Stmt.blocksAll (front ++ .block span body :: rest) =
      Stmt.blocksAll front + (Stmt.blocksAll body + 1 + Stmt.blocksAll rest) := by
    simp [Stmt.blocksAll, Stmt.blocks]
  have hdeclared : ∀ j, k ≤ j → j < k + 1 + Stmt.blocksAll body →
      declaredIn j (Index.ofProgram p).declarations =
        declaredIn j (Stmt.declarationsAll k (k + 1) body) := by
    intro j hj hj'
    rw [h.declared j (by omega) (by omega), Stmt.declarationsAll_append, declaredIn_append,
      Stmt.declarationsAll, declaredIn_append, Stmt.declarations,
      Stmt.declaredIn_elsewhere front (by omega) (by omega) (.inr hj),
      Stmt.declaredIn_elsewhere rest (by omega) (by omega) ?_]
    · rw [List.nil_append, List.append_nil]
    · simp only [Stmt.blocks]
      omega
  have houter : ∀ j, k ≤ j → j < k + 1 + Stmt.blocksAll body →
      p.outer? j = ((k, n) :: Stmt.outersAll k (k + 1) body).lookup j := by
    intro j hj hj'
    rw [h.outer j (by omega) (by omega), Stmt.outersAll_append, List.lookup_append,
      Stmt.outersAll, List.lookup_append, Stmt.outers,
      Stmt.lookup_outersAll_elsewhere front hlt (.inr hj),
      Stmt.lookup_outersAll_elsewhere rest (by omega) ?_]
    · rw [Option.none_or, Option.or_none]
    · simp only [Stmt.blocks]
      omega
  refine ⟨k, {
    lt := Nat.lt_succ_self k
    entries := fun entry hentry => h.entries entry ?_
    declared := fun j hj hj' => hdeclared j (by omega) hj'
    outer := fun j hj hj' => ?_
    outwards := .step ?_ h.outwards }, ?_⟩
  · rw [Stmt.entriesAll_append, Stmt.entriesAll, Stmt.entries]
    exact List.mem_append_right _ (List.mem_append_left _ hentry)
  · rw [houter j (by omega) hj', List.lookup_cons, beq_eq_false_iff_ne.2 (by omega)]
  · rw [houter k (Nat.le_refl k) (by omega), List.lookup_cons_self]
  · rw [hdeclared k (Nat.le_refl k) (by omega)]
    exact Stmt.declaredIn_own (by omega) (Nat.lt_succ_self k) body

/-- The numbers of nested blocks. A name means in them what the blocks declare. -/
theorem Nested.located (h : p.Nested blocks) :
    ∃ n around fresh, Located p n around fresh (blocks.headD p.body) ∧
      around.length = blocks.length ∧
      ∀ x, (Index.ofProgram p).lookup (n :: around) x = p.meaning blocks x := by
  induction h with
  | top =>
    refine ⟨0, [], 1, located_top p, rfl, fun x => ?_⟩
    rw [Index.lookup, List.findSome?_singleton, Index.declared?_eq]
    exact congrArg (lastNamed x) (Stmt.declaredIn_program Nat.zero_lt_one p.body)
  | @inside blocks span body _ hblock ih =>
    obtain ⟨n, around, fresh, hlocated, hlength, hlookup⟩ := ih
    obtain ⟨k, hinside, hdeclared⟩ := hlocated.inside hblock
    refine ⟨k, n :: around, k + 1, hinside, by simp [hlength], fun x => ?_⟩
    have hrest := hlookup x
    rw [Index.lookup] at hrest ⊢
    rw [List.findSome?_cons, hrest, Index.declared?_eq, hdeclared, meaning, meaning,
      List.findSome?_cons]
    cases lastNamed x (body.flatMap Stmt.lexical) <;> rfl

theorem StandsIn.scopes (hp : p.Distinct) (h : p.StandsIn blocks e) :
    ∃ n around, (Index.ofProgram p).scopes e.id = n :: around ∧
      p.Outwards n (n :: around) ∧ around.length = blocks.length ∧
      ∀ x, (Index.ofProgram p).lookup (n :: around) x = p.meaning blocks x := by
  obtain ⟨hnested, s, hs, root, hroot, hwithin⟩ := h
  obtain ⟨n, around, fresh, hlocated, hlength, hlookup⟩ := hnested.located
  refine ⟨n, around, ?_, hlocated.outwards, hlength, hlookup⟩
  have hnode : e ∈ (root.withParents none).map Prod.fst := Expr.mem_nodes_iff.2 hwithin
  obtain ⟨⟨e, parent⟩, hlink, rfl⟩ := List.mem_map.1 hnode
  have hroots : ∀ m, ∀ entry ∈ root.entries (n :: around), entry ∈ s.entries (n :: around) m := by
    intro m entry hentry
    cases s with
    | expr _ e =>
      obtain rfl := List.mem_singleton.1 hroot
      simpa [Stmt.entries] using hentry
    | declare _ _ ds =>
      obtain ⟨d, hd, hinit⟩ := List.mem_filterMap.1 hroot
      simp only [Stmt.entries]
      exact List.mem_flatMap.2 ⟨d, hd, List.mem_flatMap.2 ⟨root, by simp [hinit], hentry⟩⟩
    | importDecl | block | empty => cases hroot
  obtain ⟨front, rest, hbody⟩ := List.append_of_mem hs
  have hentry : (⟨e, parent, n :: around⟩ : Entry) ∈ (Index.ofProgram p).entries := by
    refine hlocated.entries _ ?_
    rw [hbody, Stmt.entriesAll_append, Stmt.entriesAll]
    refine List.mem_append_right _ (List.mem_append_left _ (hroots _ _ ?_))
    exact List.mem_map.2 ⟨(e, parent), hlink, rfl⟩
  unfold Index.scopes
  rw [show (e, parent).1.id = (⟨e, parent, n :: around⟩ : Entry).expr.id from rfl,
    hp.entry_of_mem hentry]

mutual

/-- The expressions of a statement in nested blocks belong to a statement of the innermost ones. -/
theorem exists_blocks_of_roots {blocks : List (List Stmt)} (hnested : p.Nested blocks) (s : Stmt)
    (hs : s ∈ blocks.headD p.body) {root : Expr} (hroot : root ∈ s.roots) :
    ∃ blocks, p.Nested blocks ∧ ∃ s ∈ blocks.headD p.body, root ∈ s.ownRoots := by
  match s with
  | .expr _ _ | .declare _ _ _ =>
    simp only [Stmt.roots] at hroot
    exact ⟨blocks, hnested, _, hs, hroot⟩
  | .block _ body =>
    simp only [Stmt.roots] at hroot
    exact exists_blocks_of_rootsAll (.inside hnested hs) body (fun _ h => h) hroot
  | .importDecl _ _ | .empty _ =>
    simp only [Stmt.roots] at hroot
    cases hroot

theorem exists_blocks_of_rootsAll {blocks : List (List Stmt)} (hnested : p.Nested blocks)
    (body : List Stmt) (hbody : ∀ s ∈ body, s ∈ blocks.headD p.body) {root : Expr}
    (hroot : root ∈ Stmt.rootsAll body) :
    ∃ blocks, p.Nested blocks ∧ ∃ s ∈ blocks.headD p.body, root ∈ s.ownRoots := by
  match body with
  | [] =>
    simp only [Stmt.rootsAll] at hroot
    cases hroot
  | s :: rest =>
    simp only [Stmt.rootsAll, List.mem_append] at hroot
    rcases hroot with hroot | hroot
    · exact exists_blocks_of_roots hnested s (hbody s List.mem_cons_self) hroot
    · exact exists_blocks_of_rootsAll hnested rest
        (fun s h => hbody s (List.mem_cons_of_mem _ h)) hroot

end

theorem exists_standsIn (he : e ∈ p.nodes) : ∃ blocks, p.StandsIn blocks e := by
  obtain ⟨root, hroot, hwithin⟩ := mem_nodes_iff.1 he
  obtain ⟨blocks, hnested, s, hs, hown⟩ :=
    exists_blocks_of_rootsAll Nested.top p.body (fun _ h => h) hroot
  exact ⟨blocks, hnested, s, hs, root, hown, hwithin⟩

theorem outer?_lt {n k : Nat} (h : p.outer? n = some k) : k < n := by
  obtain ⟨front, rest, hmem, -⟩ := List.lookup_eq_some_iff.1 h
  have hlink : (n, k) ∈ Stmt.outersAll 0 1 p.body := by
    rw [hmem]
    exact List.mem_append_right _ List.mem_cons_self
  exact (Stmt.outersAll_bounds 0 1 Nat.zero_lt_one p.body hlink).2.2

/-- The way outwards ends, since the block around a block has the smaller number. -/
theorem exists_outwards (p : Program) (n : Nat) : ∃ ns, p.Outwards n ns := by
  induction n using Nat.strongRecOn with
  | ind n ih =>
    cases h : p.outer? n with
    | none => exact ⟨[n], .top h⟩
    | some k =>
      obtain ⟨ns, hns⟩ := ih k (outer?_lt h)
      exact ⟨n :: ns, .step h hns⟩

/-- **What a name means.** An identifier that names a part of a node has no declaration. Any other
one has the declaration that its name means in the blocks that it stands in. The way outwards from a
block ends at the program, and the blocks around a node are on it. -/
theorem binding?_eq_meaning (hp : p.Distinct) {node : Node} {x : String}
    (he : .ident node x ∈ p.nodes) :
    let index := Index.ofProgram p
    (p.NamesPart (.ident node x) → index.binding? (.ident node x) = none) ∧
    (¬ p.NamesPart (.ident node x) → (∃ blocks, p.StandsIn blocks (.ident node x)) ∧
      ∀ blocks, p.StandsIn blocks (.ident node x) →
        index.binding? (.ident node x) = p.meaning blocks x) ∧
    (∀ n, ∃ ns, p.Outwards n ns) ∧ ∃ n, p.Outwards n (index.scopes node.id) := by
  intro index
  obtain ⟨blocks, hblocks⟩ := exists_standsIn he
  obtain ⟨n, around, hscopes, houtwards, -, -⟩ := hblocks.scopes hp
  refine ⟨fun hpart => ?_, fun hpart => ⟨⟨blocks, hblocks⟩, fun blocks' hblocks' => ?_⟩,
    p.exists_outwards, n, ?_⟩
  · have hname : index.isPartName (.ident node x) := (hp.isPartName_iff he).2 hpart
    rw [Index.binding?, Index.isReference, hname]
    rfl
  · have hname : index.isPartName (.ident node x) = false := by
      rw [Bool.eq_false_iff]
      exact fun h => hpart ((hp.isPartName_iff he).1 h)
    obtain ⟨n', around', hscopes', -, -, hlookup⟩ := hblocks'.scopes hp
    rw [Index.binding?, Index.isReference, hname, hscopes']
    exact hlookup x
  · rw [← hscopes] at houtwards
    exact houtwards

/-- In the inner block of `const a = 1; { { a; } let a = 2; }` the name stands before the `let` that
it means. -/
theorem binding?_before_let :
    let p := (parseProgram "const a = 1; { { a; } let a = 2; }").value
    p.Distinct ∧ ∃ node, .ident node "a" ∈ p.nodes ∧ ¬ p.NamesPart (.ident node "a") ∧
      ∃ blocks, p.StandsIn blocks (.ident node "a") ∧
        (Index.ofProgram p).binding? (.ident node "a") = p.meaning blocks "a" := by
  intro p
  have hp : p.Distinct := distinct_parseProgram _
  have hany : p.nodes.any fun e =>
      decide (e.name? = some "a") && !(Index.ofProgram p).isPartName e := by
    decide +kernel
  obtain ⟨e, he, hread⟩ := List.any_eq_true.1 hany
  rw [Bool.and_eq_true, decide_eq_true_eq, Bool.not_eq_true'] at hread
  obtain ⟨hname, hpart⟩ := hread
  obtain ⟨node, rfl⟩ : ∃ node, e = .ident node "a" := by
    cases e with
    | ident node x => exact ⟨node, by simpa [Expr.name?] using hname⟩
    | _ => simp [Expr.name?] at hname
  obtain ⟨-, hmeaning, -⟩ := binding?_eq_meaning hp he
  have hread : ¬ p.NamesPart (.ident node "a") := fun h => by
    rw [(hp.isPartName_iff he).2 h] at hpart
    cases hpart
  obtain ⟨⟨blocks, hblocks⟩, heq⟩ := hmeaning hread
  exact ⟨hp, node, he, hread, blocks, hblocks, heq blocks hblocks⟩

end Program

end ScriptFold
