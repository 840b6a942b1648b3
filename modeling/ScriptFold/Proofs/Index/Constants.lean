import Mathlib.Data.List.Perm.Subperm
import ScriptFold.Constant
import ScriptFold.Proofs.Index.Scoping

/-!
Where chains of constants lead.

A name that means a `const` leads to the initial value of the `const`, and this may be a name
again, which is looked up in the blocks around itself. A node is known as a constant exactly if
such steps lead from it to a literal or to one of the names that every script knows, without coming
to an initial value twice. The steps that are left are among the nodes that a chain has not come
to, so every chain ends.
-/

namespace ScriptFold

namespace Program

/-! ## Chains -/

section

variable (p : Program)

/-- The node is a name that is read as a variable, with the declaration that the name means where
the node stands, if it means one. -/
def Reads (e : Expr) (x : String) (binding? : Option Binding) : Prop :=
  e.name? = some x ∧ ¬ p.NamesPart e ∧ ∃ blocks, p.StandsIn blocks e ∧ p.meaning blocks x = binding?

/-- The node `e` is a name that means a `const`, and `d` is the initial value of this `const`. -/
def Hop (e d : Expr) : Prop :=
  d ∈ p.nodes ∧ ∃ x binding, p.Reads e x (some binding) ∧
    binding.kind = .var .constVar (some d.id)

/-- Names lead from the node `e` over the initial values `ds` to the node `last`. -/
inductive Leads : Expr → List Expr → Expr → Prop
  | stay (e : Expr) : Leads e [] e
  | hop {e d last : Expr} {ds : List Expr} (h : p.Hop e d) (hrest : Leads d ds last) :
    Leads e (d :: ds) last

inductive Evident : Expr → Value → Prop
  | null (node : Node) : Evident (.null node) .null
  | bool (node : Node) (b : Bool) : Evident (.bool node b) (.bool b)
  | number (node : Node) (x : Float) : Evident (.number node x) (.number x)
  | string (node : Node) (s : String) : Evident (.string node s) (.string s)
  | undefined {e : Expr} (h : p.Reads e "undefined" none) : Evident e .undefined
  | nan {e : Expr} (h : p.Reads e "NaN" none) : Evident e (.number Number.nan)
  | infinity {e : Expr} (h : p.Reads e "Infinity" none) : Evident e (.number Number.infinity)

end

variable {p : Program} {e d last : Expr} {ds : List Expr} {v : Value}

theorem Leads.mem_nodes (h : p.Leads e ds last) : ∀ d ∈ ds, d ∈ p.nodes := by
  induction h with
  | stay e => exact fun _ hd => absurd hd List.not_mem_nil
  | hop h _ ih => exact List.forall_mem_cons.2 ⟨h.1, ih⟩

/-! ## What an index tells of a chain -/

/-- An index tells what a name means where it is read. -/
theorem Distinct.reads_iff (hp : p.Distinct) (he : e ∈ p.nodes) {x : String}
    {binding? : Option Binding} : p.Reads e x binding? ↔
      e.name? = some x ∧ (Index.ofProgram p).isReference e ∧
        (Index.ofProgram p).binding? e = binding? := by
  refine and_congr_right fun hname => ?_
  obtain ⟨node, rfl⟩ : ∃ node, e = .ident node x := by
    cases e with
    | ident node y =>
      cases hname
      exact ⟨node, rfl⟩
    | _ => cases hname
  obtain ⟨-, hmeaning, -⟩ := binding?_eq_meaning hp he
  have hreference : (Index.ofProgram p).isReference (.ident node x) ↔
      ¬ p.NamesPart (.ident node x) := by
    rw [← hp.isPartName_iff he, Index.isReference]
    simp [Expr.name?]
  rw [hreference]
  refine and_congr_right fun hread => ?_
  obtain ⟨⟨blocks, hblocks⟩, heq⟩ := hmeaning hread
  constructor
  · rintro ⟨blocks', hblocks', rfl⟩
    exact heq blocks' hblocks'
  · rintro rfl
    exact ⟨blocks, hblocks, (heq blocks hblocks).symm⟩

theorem constInit?_eq_some_iff {kind : BindingKind} {id : NodeId} :
    Baseline.constInit? kind = some id ↔ kind = .var .constVar (some id) := by
  constructor
  · intro h
    unfold Baseline.constInit? at h
    split at h
    · rw [h]
    · cases h
  · rintro rfl
    rfl

/-- The node that a name leads to is the one that the index follows. -/
theorem Distinct.hop_iff (hp : p.Distinct) (he : e ∈ p.nodes) : p.Hop e d ↔
    d ∈ p.nodes ∧ (Index.ofProgram p).isReference e ∧ ∃ binding,
      (Index.ofProgram p).binding? e = some binding ∧
        Baseline.constInit? binding.kind = some d.id := by
  refine and_congr_right fun _ => ?_
  constructor
  · rintro ⟨x, binding, hreads, hkind⟩
    obtain ⟨-, hreference, hbinding⟩ := (hp.reads_iff he).1 hreads
    exact ⟨hreference, binding, hbinding, constInit?_eq_some_iff.2 hkind⟩
  · rintro ⟨hreference, binding, hbinding, hinit⟩
    obtain ⟨hname, -⟩ := Bool.and_eq_true_iff.1 hreference
    obtain ⟨x, hx⟩ := Option.isSome_iff_exists.1 hname
    exact ⟨x, binding, (hp.reads_iff he).2 ⟨hx, hreference, hbinding⟩,
      constInit?_eq_some_iff.1 hinit⟩

theorem Distinct.hop_unique (hp : p.Distinct) (he : e ∈ p.nodes) {d' : Expr} (h : p.Hop e d)
    (h' : p.Hop e d') : d = d' := by
  obtain ⟨hd, -, binding, hbinding, hinit⟩ := (hp.hop_iff he).1 h
  obtain ⟨hd', -, binding', hbinding', hinit'⟩ := (hp.hop_iff he).1 h'
  obtain rfl : binding = binding' := Option.some.inj (hbinding.symm.trans hbinding')
  exact hp.eq_of_id_eq hd hd' (Option.some.inj (hinit.symm.trans hinit'))

/-- What a name has by itself is what every script knows of it. -/
theorem Distinct.evident_ident_iff (hp : p.Distinct) {node : Node} {x : String}
    (he : .ident node x ∈ p.nodes) : p.Evident (.ident node x) v ↔
      (Index.ofProgram p).isReference (.ident node x) ∧
        (Index.ofProgram p).binding? (.ident node x) = none ∧ Baseline.global? x = some v := by
  have hreads {y : String} (h : p.Reads (.ident node x) y none) : x = y ∧
      (Index.ofProgram p).isReference (.ident node x) ∧
        (Index.ofProgram p).binding? (.ident node x) = none := by
    obtain ⟨hname, hrest⟩ := (hp.reads_iff he).1 h
    exact ⟨Option.some.inj hname, hrest⟩
  constructor
  · intro h
    cases h with
    | undefined h | nan h | infinity h =>
      obtain ⟨rfl, hreference, hbinding⟩ := hreads h
      exact ⟨hreference, hbinding, rfl⟩
  · rintro ⟨hreference, hbinding, hglobal⟩
    have hfree : p.Reads (.ident node x) x none :=
      (hp.reads_iff he).2 ⟨rfl, hreference, hbinding⟩
    unfold Baseline.global? at hglobal
    split at hglobal <;> cases hglobal
    · exact .undefined hfree
    · exact .nan hfree
    · exact .infinity hfree

theorem evident_iff_of_name? (hname : e.name? = none) :
    p.Evident e v ↔ Baseline.literal? e = some v := by
  constructor
  · intro h
    cases h with
    | null | bool | number | string => rfl
    | undefined h | nan h | infinity h =>
      rw [h.1] at hname
      cases hname
  · intro h
    unfold Baseline.literal? at h
    split at h <;> cases h
    · exact .null _
    · exact .bool _ _
    · exact .number _ _
    · exact .string _ _

/-! ## Following a chain -/

section Following

variable {ahead : List Entry}

/-- The node is one of those that a chain may still come to. -/
def IsAhead (ahead : List Entry) (d : Expr) : Prop := ∃ entry ∈ ahead, entry.expr = d

theorem isAhead_others_iff {id : NodeId} :
    IsAhead (Baseline.others id ahead) d ↔ IsAhead ahead d ∧ d.id ≠ id := by
  simp only [IsAhead, Baseline.others, List.mem_filter, decide_eq_true_eq]
  constructor
  · rintro ⟨entry, ⟨hentry, hne⟩, rfl⟩
    exact ⟨⟨entry, hentry, rfl⟩, hne⟩
  · rintro ⟨⟨entry, hentry, rfl⟩, hne⟩
    exact ⟨entry, ⟨hentry, hne⟩, rfl⟩

/-- The initial value that a name leads to is followed if it is still ahead. -/
theorem constantFrom_bound {index : Index} {node : Node} {x : String} {binding : Binding}
    (hreference : index.isReference (.ident node x))
    (hbinding : index.binding? (.ident node x) = some binding) :
    Baseline.constantFrom index ahead (.ident node x) =
      ((Baseline.constInit? binding.kind).bind fun init => ahead.find? (·.expr.id = init)).bind
        fun entry =>
          Baseline.constantFrom index (Baseline.others entry.expr.id ahead) entry.expr := by
  rw [Baseline.constantFrom, if_pos hreference, hbinding]
  dsimp only
  split <;> rename_i hnext <;> rw [hnext] <;> rfl

theorem exists_ident {x : String} (h : e.name? = some x) : ∃ node, e = .ident node x := by
  cases e with
  | ident node y =>
    cases h
    exact ⟨node, rfl⟩
  | _ => cases h

/-- Where a name leads to a node that is still ahead, the chain goes on from this node. -/
theorem Distinct.constantFrom_hop (hp : p.Distinct) (he : e ∈ p.nodes)
    (hahead : ∀ d, IsAhead ahead d → d ∈ p.nodes) (hhop : p.Hop e d) (hd : IsAhead ahead d) :
    Baseline.constantFrom (Index.ofProgram p) ahead e =
      Baseline.constantFrom (Index.ofProgram p) (Baseline.others d.id ahead) d := by
  obtain ⟨hmem, hreference, binding, hbinding, hinit⟩ := (hp.hop_iff he).1 hhop
  obtain ⟨-, x, -, ⟨hname, -⟩, -⟩ := hhop
  obtain ⟨node, rfl⟩ := exists_ident hname
  rw [constantFrom_bound hreference hbinding, hinit, Option.bind_some]
  cases hfound : ahead.find? (·.expr.id = d.id) with
  | none =>
    obtain ⟨entry, hentry, rfl⟩ := hd
    exact absurd (decide_eq_true rfl) (List.find?_eq_none.1 hfound entry hentry)
  | some entry =>
    have hid : entry.expr.id = d.id := by simpa using List.find?_some hfound
    have hentry : entry.expr ∈ p.nodes := hahead _ ⟨entry, List.mem_of_find?_eq_some hfound, rfl⟩
    rw [Option.bind_some, hp.eq_of_id_eq hentry hmem hid]

theorem Distinct.constantFrom_end (hp : p.Distinct) (he : e ∈ p.nodes)
    (hahead : ∀ d, IsAhead ahead d → d ∈ p.nodes) (hend : ∀ d, p.Hop e d → ¬ IsAhead ahead d) :
    Baseline.constantFrom (Index.ofProgram p) ahead e = some v ↔ p.Evident e v := by
  cases hname : e.name? with
  | none =>
    rw [evident_iff_of_name? hname, Baseline.constantFrom]
    rintro node x rfl
    cases hname
  | some x =>
    obtain ⟨node, rfl⟩ := exists_ident hname
    rw [hp.evident_ident_iff he]
    by_cases hreference : (Index.ofProgram p).isReference (.ident node x)
    · cases hbinding : (Index.ofProgram p).binding? (.ident node x) with
      | none =>
        rw [Baseline.constantFrom, if_pos hreference, hbinding]
        simp [hreference]
      | some binding =>
        -- The initial value is not ahead, so there is nothing to follow.
        have hnone : ((Baseline.constInit? binding.kind).bind fun init =>
            ahead.find? (·.expr.id = init)) = none := by
          rw [Option.bind_eq_none_iff]
          intro init hinit
          by_contra hfound
          obtain ⟨entry, hfound⟩ := Option.ne_none_iff_exists'.1 hfound
          have hentry : IsAhead ahead entry.expr := ⟨entry, List.mem_of_find?_eq_some hfound, rfl⟩
          have hid : entry.expr.id = init := by simpa using List.find?_some hfound
          refine hend entry.expr ((hp.hop_iff he).2 ?_) hentry
          exact ⟨hahead _ hentry, hreference, binding, hbinding, hid ▸ hinit⟩
        rw [constantFrom_bound hreference hbinding, hnone]
        simp
    · rw [Baseline.constantFrom, if_neg hreference]
      simp [hreference]

theorem Distinct.not_evident_of_hop (hp : p.Distinct) (he : e ∈ p.nodes) (h : p.Hop e d) :
    ¬ p.Evident e v := by
  intro hevident
  obtain ⟨-, -, binding, hbinding, -⟩ := (hp.hop_iff he).1 h
  obtain ⟨-, x, -, ⟨hname, -⟩, -⟩ := h
  obtain ⟨node, rfl⟩ := exists_ident hname
  obtain ⟨-, hfree, -⟩ := (hp.evident_ident_iff he).1 hevident
  rw [hbinding] at hfree
  cases hfree

theorem nodes_others (hahead : ∀ d, IsAhead ahead d → d ∈ p.nodes) (id : NodeId) :
    ∀ d, IsAhead (Baseline.others id ahead) d → d ∈ p.nodes :=
  fun d h => hahead d (isAhead_others_iff.1 h).1

theorem length_others_of_isAhead (hd : IsAhead ahead d) :
    (Baseline.others d.id ahead).length < ahead.length := by
  obtain ⟨entry, hentry, rfl⟩ := hd
  exact Baseline.length_others_lt hentry

/-- A chain without repetition that goes on from where a node leads. -/
theorem nodup_cons_of_others (hd : IsAhead ahead d) (hnodup : ds.Nodup)
    (hds : ∀ d' ∈ ds, IsAhead (Baseline.others d.id ahead) d') :
    (d :: ds).Nodup ∧ ∀ d' ∈ d :: ds, IsAhead ahead d' := by
  have hnotMem : d ∉ ds := fun h => (isAhead_others_iff.1 (hds d h)).2 rfl
  exact ⟨List.nodup_cons.2 ⟨hnotMem, hnodup⟩,
    List.forall_mem_cons.2 ⟨hd, fun d' h => (isAhead_others_iff.1 (hds d' h)).1⟩⟩

/-- The answer is the value where the chain ends. -/
theorem Distinct.constantFrom_eq_some_iff (hp : p.Distinct) (he : e ∈ p.nodes)
    (hahead : ∀ d, IsAhead ahead d → d ∈ p.nodes) :
    Baseline.constantFrom (Index.ofProgram p) ahead e = some v ↔
      ∃ ds last, p.Leads e ds last ∧ ds.Nodup ∧ (∀ d ∈ ds, IsAhead ahead d) ∧ p.Evident last v := by
  -- The induction is on what is ahead, which a hop makes smaller.
  induction hlength : ahead.length using Nat.strongRecOn generalizing ahead e with
  | ind n ih =>
    subst hlength
    by_cases hnext : ∃ d, p.Hop e d ∧ IsAhead ahead d
    · obtain ⟨d, hhop, hd⟩ := hnext
      rw [hp.constantFrom_hop he hahead hhop hd,
        ih _ (length_others_of_isAhead hd) hhop.1 (nodes_others hahead d.id) rfl]
      constructor
      · rintro ⟨ds, last, hleads, hnodup, hds, hevident⟩
        obtain ⟨hnodup, hds⟩ := nodup_cons_of_others hd hnodup hds
        exact ⟨d :: ds, last, .hop hhop hleads, hnodup, hds, hevident⟩
      · rintro ⟨ds, last, hleads, hnodup, hds, hevident⟩
        cases hleads with
        | stay => exact absurd hevident (hp.not_evident_of_hop he hhop)
        | hop hhop' hleads =>
          obtain rfl := hp.hop_unique he hhop hhop'
          obtain ⟨hnotMem, hnodup⟩ := List.nodup_cons.1 hnodup
          refine ⟨_, last, hleads, hnodup, fun d' h => isAhead_others_iff.2 ⟨?_, fun hid => ?_⟩,
            hevident⟩
          · exact hds d' (List.mem_cons_of_mem _ h)
          · -- A node with the same identity would be the same node again.
            have heq := hp.eq_of_id_eq (hleads.mem_nodes d' h) hhop.1 hid
            exact hnotMem (heq ▸ h)
    · have hend : ∀ d, p.Hop e d → ¬ IsAhead ahead d := fun d h h' => hnext ⟨d, h, h'⟩
      rw [hp.constantFrom_end he hahead hend]
      constructor
      · exact fun h => ⟨[], e, .stay e, List.nodup_nil, fun _ h => absurd h List.not_mem_nil, h⟩
      · rintro ⟨ds, last, hleads, -, hds, hevident⟩
        cases hleads with
        | stay => exact hevident
        | hop hhop _ => exact absurd (hds _ List.mem_cons_self) (hend _ hhop)

/-- A chain that comes to every node that is ahead at most once cannot go on for ever. -/
theorem Distinct.exists_end (hp : p.Distinct) (ahead : List Entry) (e : Expr) :
    ∃ ds last, p.Leads e ds last ∧ ds.Nodup ∧ (∀ d ∈ ds, IsAhead ahead d) ∧
      ∀ d, p.Hop last d → IsAhead ahead d → d ∈ ds := by
  induction hlength : ahead.length using Nat.strongRecOn generalizing ahead e with
  | ind n ih =>
    subst hlength
    by_cases hnext : ∃ d, p.Hop e d ∧ IsAhead ahead d
    · obtain ⟨d, hhop, hd⟩ := hnext
      obtain ⟨ds, last, hleads, hnodup, hds, hend⟩ :=
        ih _ (length_others_of_isAhead hd) (Baseline.others d.id ahead) d rfl
      obtain ⟨hnodup, hds⟩ := nodup_cons_of_others hd hnodup hds
      refine ⟨d :: ds, last, .hop hhop hleads, hnodup, hds, fun d' hhop' hd' => ?_⟩
      by_cases hid : d'.id = d.id
      · exact hp.eq_of_id_eq hhop'.1 hhop.1 hid ▸ List.mem_cons_self
      · exact List.mem_cons_of_mem _ (hend d' hhop' (isAhead_others_iff.2 ⟨hd', hid⟩))
    · exact ⟨[], e, .stay e, List.nodup_nil, fun _ h => absurd h List.not_mem_nil,
        fun d h h' => absurd ⟨d, h, h'⟩ hnext⟩

end Following

/-- **Constants are what chains of names lead to.** From every node of a program names lead to a
node where the chain ends: this node leads nowhere, or to an initial value that the chain has come
to before. A chain that comes to every initial value at most once is not longer than there are
nodes. A node is known to be the constant `v` exactly if such a chain leads from it to a literal of
the value `v`, or to `undefined`, `NaN` or `Infinity` where nothing declares this name; nothing is
known of any other node. -/
theorem constant_iff_leads (hp : p.Distinct) (he : e ∈ p.nodes) :
    let constant := Baseline.constant (Index.ofProgram p)
    (∃ ds last, p.Leads e ds last ∧ ds.Nodup ∧ ∀ d, p.Hop last d → d ∈ ds) ∧
    (∀ ds last, p.Leads e ds last → ds.Nodup → ds.length ≤ p.nodes.length) ∧
    (∀ v, constant e = some (.ok v) ↔
      ∃ ds last, p.Leads e ds last ∧ ds.Nodup ∧ p.Evident last v) ∧
    (constant e = none ↔ ¬ ∃ v ds last, p.Leads e ds last ∧ ds.Nodup ∧ p.Evident last v) := by
  intro constant
  have hall : ∀ d ∈ p.nodes, IsAhead (Index.ofProgram p).entries d := fun d hd => exists_entry hd
  have hmem : ∀ d, IsAhead (Index.ofProgram p).entries d → d ∈ p.nodes := by
    rintro d ⟨entry, hentry, rfl⟩
    exact List.mem_map_of_mem hentry
  have hknown (v : Value) :
      Baseline.constantFrom (Index.ofProgram p) (Index.ofProgram p).entries e = some v ↔
        ∃ ds last, p.Leads e ds last ∧ ds.Nodup ∧ p.Evident last v := by
    rw [hp.constantFrom_eq_some_iff he hmem]
    refine exists_congr fun ds => exists_congr fun last => and_congr_right fun hleads => ?_
    refine and_congr_right fun _ => and_iff_right fun d hd => hall d (hleads.mem_nodes d hd)
  refine ⟨?_, fun ds last hleads hnodup => ?_, fun v => ?_, ?_⟩
  · obtain ⟨ds, last, hleads, hnodup, -, hend⟩ := hp.exists_end (Index.ofProgram p).entries e
    exact ⟨ds, last, hleads, hnodup, fun d h => hend d h (hall d h.1)⟩
  · exact (hnodup.subperm hleads.mem_nodes).length_le
  · rw [← hknown]
    simp [constant, Baseline.constant]
  · rw [← not_iff_not, not_not]
    simp only [← hknown]
    simp [constant, Baseline.constant, Option.eq_none_iff_forall_ne_some]

/-- The chain from `b` leads to the outer `c`, which is looked up where the initial value of `b`
stands; the chain from `x` comes back to its initial values. -/
theorem constant_iff_leads_of_shadowed :
    let p := (parseProgram
      "const x = y, y = x, c = true; { const b = c; { const c = false; b; x; } }").value
    p.Distinct ∧
    (∃ e ∈ p.nodes, e.name? = some "b" ∧
      ∃ ds last, p.Leads e ds last ∧ ds.Nodup ∧ p.Evident last (.bool true)) ∧
    ∃ e ∈ p.nodes, e.name? = some "x" ∧
      ¬ ∃ v ds last, p.Leads e ds last ∧ ds.Nodup ∧ p.Evident last v := by
  intro p
  have hp : p.Distinct := distinct_parseProgram _
  have hknown : p.nodes.any fun e => decide (e.name? = some "b") &&
      ((Baseline.constant (Index.ofProgram p) e).bind Except.toOption).any (·.beq (.bool true)) := by
    decide +kernel
  have hunknown : p.nodes.any fun e => decide (e.name? = some "x") &&
      (Baseline.constant (Index.ofProgram p) e).isNone := by
    decide +kernel
  obtain ⟨b, hb, h⟩ := List.any_eq_true.1 hknown
  obtain ⟨hname, hvalue⟩ := Bool.and_eq_true_iff.1 h
  obtain ⟨x, hx, h'⟩ := List.any_eq_true.1 hunknown
  obtain ⟨hname', hnone⟩ := Bool.and_eq_true_iff.1 h'
  obtain ⟨-, -, hiff, -⟩ := constant_iff_leads hp hb
  obtain ⟨-, -, -, hiff'⟩ := constant_iff_leads hp hx
  have hconstant : Baseline.constant (Index.ofProgram p) b = some (.ok (.bool true)) := by
    rcases hreading : Baseline.constant (Index.ofProgram p) b with _ | ⟨_ | v⟩ <;>
      rw [hreading] at hvalue
    · cases hvalue
    · cases hvalue
    · have hbeq : v.beq (.bool true) = true := hvalue
      cases v with
      | bool t => rw [beq_iff_eq.1 hbeq]
      | _ => cases hbeq
  exact ⟨hp, ⟨b, hb, of_decide_eq_true hname, (hiff _).1 hconstant⟩,
    x, hx, of_decide_eq_true hname', hiff'.1 (Option.isNone_iff_eq_none.1 hnone)⟩

end Program

end ScriptFold
