import ScriptFold.Fold
import ScriptFold.Proofs.Evaluation.Locality
import ScriptFold.Proofs.Evaluation.Moments

/-!
Names of members and of properties.

A name that stands for the key of a part is evaluated like any other name, and it counts as the key
only if nothing is known of it. So a part is found under the text of what is known of its name: an
object or a member has the value that it has with that text as a computed key.
-/

namespace ScriptFold

/-! ## Keys -/

def Cell.key (c : Cell) : Except Fault String := c.reading.map Value.toKey

namespace Reading

theorem member_congr {optional : Bool} {object key key' : Reading}
    (h : key.map Value.toKey = key'.map Value.toKey) :
    member optional object key = member optional object key' := by
  cases object with
  | error f => rfl
  | ok o =>
    cases key with
    | error f =>
      cases key' with
      | error f' =>
        cases h
        rfl
      | ok w => cases h
    | ok v =>
      cases key' with
      | error f => cases h
      | ok w =>
        have hkey : v.toKey = w.toKey := Except.ok.inj h
        simp only [member, bind, Except.bind, hkey]

theorem object_congr {i : Identity} {entries entries' : List (Reading × Reading)}
    (h : (entries.map fun (key, value) => (key.map Value.toKey, value)) =
      entries'.map fun (key, value) => (key.map Value.toKey, value)) :
    object i entries = object i entries' := by
  let entry : Except Fault String × Reading → Except Fault (String × Value) :=
    fun (key, value) => do return (← key, ← value)
  have hread : ∀ es : List (Reading × Reading),
      es.mapM (fun (key, value) => do return ((← key).toKey, ← value)) =
        (es.map fun (key, value) => (key.map Value.toKey, value)).mapM entry := by
    intro es
    rw [List.mapM_map]
    congr 1
    funext ⟨key, value⟩
    cases key <;> rfl
  unfold object
  rw [hread, hread, h]

end Reading

namespace Expr

/-- The name of a key that is not computed. -/
def nameKey? : Bool → Expr → Option (Node × String)
  | false, ident k x => some (k, x)
  | _, _ => none

/-- A key, and whether it is computed, with a computed key in the place of a name. -/
def keyed (key? : Node → String → Option Expr) (computed : Bool) (key : Expr) : Expr × Bool :=
  match (nameKey? computed key).bind fun (k, x) => key? k x with
  | some key' => (key', true)
  | none => (key, computed)

def memberWithKey (key? : Node → String → Option Expr) : Expr → Expr
  | property n key value computed shorthand =>
    let part := keyed key? computed key
    property n part.1 value part.2 (shorthand && !part.2)
  | e => e

/-- The object or member with computed keys in the place of names. -/
def withKeys (key? : Node → String → Option Expr) : Expr → Expr
  | object n members => object n (members.map (memberWithKey key?))
  | member n o key computed optional =>
    let part := keyed key? computed key
    member n o part.1 part.2 optional
  | e => e

theorem id_withKeys (key? : Node → String → Option Expr) (e : Expr) :
    (e.withKeys key?).id = e.id := by
  cases e <;> rfl

def memberName? : Expr → Option (Node × String)
  | property _ key _ computed _ => nameKey? computed key
  | _ => none

def partNames : Expr → List (Node × String)
  | object _ members => members.filterMap memberName?
  | member _ _ key computed _ => (nameKey? computed key).toList
  | _ => []

end Expr

namespace Evaluation

variable {α β γ : Type} {s : Setting} {K : NodeId → Prop} {m m₁ n n₁ : Memory}

/-- The text of the key of a part with the name `x`, if it can be read: the name itself, if nothing is
known of it. -/
def partText (x : String) : Answer → Option String
  | none => some x
  | some c => c.reading.toOption.map Value.toKey

theorem key_of_partText {k : Node} {x t : String} {a : Answer} (h : partText x a = some t) :
    (s.keyOf false (.ident k x) a).map Cell.key = some (.ok t) := by
  cases a with
  | none =>
    cases h
    rfl
  | some c =>
    cases hreading : c.reading with
    | error f => simp [partText, hreading, Except.toOption] at h
    | ok w =>
      simp only [partText, hreading, Except.toOption, Option.map_some, Option.some.injEq] at h
      show some (c.reading.map Value.toKey) = some (.ok t)
      rw [hreading, ← h]
      rfl

/-! ## Runs side by side -/

/-- The computation `x` from the memory `m` and `y` from `n` end with the same fault or with results
that `f` and `g` send to the same, and what they leave differs in what is remembered for `K` only. -/
def Parallel (K : NodeId → Prop) (f : α → γ) (g : β → γ) (m : Memory) (x : Evaluation α) (n : Memory)
    (y : Evaluation β) : Prop :=
  (x.run m).1.map f = (y.run n).1.map g ∧ SameBut K (x.run m).2 (y.run n).2

namespace Parallel

variable {γ' α' β' : Type} {f : α → γ} {g : β → γ} {f' : α' → γ'} {g' : β' → γ'} {x : Evaluation α}
  {y : Evaluation β}

theorem of_gives {a : α} {b : β} (hx : Gives m x a m₁) (hy : Gives n y b n₁) (h : f a = g b)
    (hsame : SameBut K m₁ n₁) : Parallel K f g m x n y := by
  rw [Parallel, hx, hy]
  exact ⟨congrArg Except.ok h, hsame⟩

theorem of_pure {a : α} {b : β} (h : f a = g b) (hsame : SameBut K m n) :
    Parallel K f g m (pure a) n (pure b) :=
  .of_gives (gives_pure.2 ⟨rfl, rfl⟩) (gives_pure.2 ⟨rfl, rfl⟩) h hsame

theorem bind {k : α → Evaluation α'} {k' : β → Evaluation β'} (h : Parallel K f g m x n y)
    (hk : ∀ a m₁ b n₁, Gives m x a m₁ → Gives n y b n₁ → f a = g b → SameBut K m₁ n₁ →
      Parallel K f' g' m₁ (k a) n₁ (k' b)) :
    Parallel K f' g' m (x >>= k) n (y >>= k') := by
  obtain ⟨hresult, hsame⟩ := h
  rw [Parallel, run_bind, run_bind]
  rcases hx : x.run m with ⟨e | a, m₁⟩ <;> rcases hy : y.run n with ⟨e' | b, n₁⟩ <;>
    rw [hx, hy] at hresult hsame
  · cases hresult
    exact ⟨rfl, hsame⟩
  · cases hresult
  · cases hresult
  · exact hk a m₁ b n₁ hx hy (Except.ok.inj hresult) hsame

theorem result_eq {x y : Evaluation α} (h : Parallel K (fun a => a) (fun b => b) m x n y) :
    (x.run m).1 = (y.run n).1 := by
  have hresult := h.1
  rcases hx : (x.run m).1 with e | a <;> rcases hy : (y.run n).1 with e' | b <;>
    rw [hx, hy] at hresult <;> cases hresult <;> rfl

theorem map {h : α → α'} {h' : β → β'} (hp : Parallel K f g m x n y)
    (himage : ∀ a b, f a = g b → f' (h a) = g' (h' b)) :
    Parallel K f' g' m (x >>= fun a => pure (h a)) n (y >>= fun b => pure (h' b)) :=
  hp.bind fun a _ b _ _ _ hab hsame => .of_pure (himage a b hab) hsame

theorem answer {e : Expr} (he : ∀ id, e.HasId id → ¬ K id) (h : SameBut K m n) :
    Parallel K (fun a => a) (fun b => b) m (answer s e) n (answer s e) := by
  obtain ⟨hresult, hsame⟩ := agree_answer (s := s) e he m n h
  exact ⟨congrArg (Except.map fun a => a) hresult, hsame⟩

end Parallel

/-! ## Names and literals -/

/-- A new node whose rule only gives an answer: all but the answer for the node stays as it is. -/
theorem gives_of_still {e : Expr} {a : Answer} (hm : m.memo.lookup e.id = none)
    (hrule : Gives (m.asking e) (ruleBy (answer s) s e) a (m.asking e)) :
    ∃ m₁, Gives m (answer s e) ((s.baseline e).elim a fun r => some (s.cell e r)) m₁ ∧
      m₁.locals = m.locals ∧ ∀ id, id ≠ e.id → m₁.memo.lookup id = m.memo.lookup id := by
  let b : Answer := (s.baseline e).elim a fun r => some (s.cell e r)
  refine ⟨(m.asking e).knowing e b, ?_, rfl, fun id hid =>
    ((m.asking e).lookup_memo_knowing e b id).trans (if_neg hid)⟩
  rw [answer_eq]
  refine gives_once.2 (.inr ⟨hm, m.asking e, ?_, rfl⟩)
  cases hbaseline : s.baseline e with
  | some r =>
    rw [fresh_of_some hbaseline]
    exact gives_pure.2 ⟨rfl, rfl⟩
  | none =>
    rw [fresh_of_none hbaseline]
    exact hrule

theorem gives_ident (k : Node) (x : String) (m : Memory) :
    ∃ a m₁, Gives m (answer s (.ident k x)) a m₁ ∧
      (m.memo.lookup k.id = none → s.baseline (.ident k x) = none → a = m.locals.lookup x) ∧
      m₁.locals = m.locals ∧ ∀ id, id ≠ k.id → m₁.memo.lookup id = m.memo.lookup id := by
  cases hm : m.memo.lookup (Expr.ident k x).id with
  | some a =>
    refine ⟨a, m, run_answer_of_known hm, fun hnone => ?_, rfl, fun _ _ => rfl⟩
    cases hm.symm.trans hnone
  | none =>
    obtain ⟨m₁, h, hlocals, hmemo⟩ := gives_of_still (s := s) hm (gives_local?.2 ⟨rfl, rfl⟩)
    refine ⟨_, m₁, h, fun _ hbaseline => ?_, hlocals, hmemo⟩
    rw [hbaseline]
    rfl

theorem gives_newLiteral {l : Node} {t : String} (hm : m.memo.lookup l.id = none)
    (hknown : ∀ r, s.baseline (.string l t) = some r → r = .ok (.string t)) :
    ∃ c m₁, Gives m (answer s (.string l t)) (some c) m₁ ∧ c.reading = .ok (.string t) ∧
      m₁.locals = m.locals ∧ ∀ id, id ≠ l.id → m₁.memo.lookup id = m.memo.lookup id := by
  obtain ⟨m₁, h, hstill⟩ :=
    gives_of_still (s := s) (e := .string l t) hm (gives_pure.2 ⟨rfl, rfl⟩)
  cases hbaseline : s.baseline (.string l t) with
  | some r =>
    rw [hbaseline] at h
    exact ⟨_, m₁, h, hknown r hbaseline, hstill⟩
  | none =>
    rw [hbaseline] at h
    exact ⟨_, m₁, h, rfl, hstill⟩

/-! ## Parts -/

section

variable (text : Node → String → Option String) (literal : Node → Node)

/-- The string literal in the place of a name, if there is a text for the name. -/
def literalKey (k : Node) (x : String) : Option Expr := (text k x).map (.string (literal k))

/-- The name of the part has a text. -/
def Replaced (computed : Bool) (key : Expr) (k : Node) (t : String) : Prop :=
  ∃ x, Expr.nameKey? computed key = some (k, x) ∧ text k x = some t

variable {text literal} {key value : Expr} {computed : Bool}

theorem keyed_of_replaced {k : Node} {t : String} (h : Replaced text computed key k t) :
    Expr.keyed (literalKey text literal) computed key = (.string (literal k) t, true) := by
  obtain ⟨x, hname, htext⟩ := h
  simp only [Expr.keyed, hname, Option.bind_some, literalKey, htext, Option.map_some]

theorem keyed_of_not_replaced (h : ¬ ∃ k t, Replaced text computed key k t) :
    Expr.keyed (literalKey text literal) computed key = (key, computed) := by
  unfold Expr.keyed
  cases hname : Expr.nameKey? computed key with
  | none => rfl
  | some part =>
    cases htext : text part.1 part.2 with
    | some t => exact absurd ⟨part.1, t, part.2, hname, htext⟩ h
    | none => simp only [Option.bind_some, literalKey, htext, Option.map_none]

/-- The identities of a name that has a text and of its literal are in `K`, those of all other nodes
within a key are not. -/
structure Spares (K : NodeId → Prop) (text : Node → String → Option String) (literal : Node → Node)
    (computed : Bool) (key : Expr) : Prop where
  replaced : ∀ k t, Replaced text computed key k t → K k.id ∧ K (literal k).id
  kept : (¬ ∃ k t, Replaced text computed key k t) → ∀ id, key.HasId id → ¬ K id

/-- The literal for a name is new to the memory, and if the baseline knows string literals there, it
knows them as what they are. -/
def Writable (s : Setting) (n : Memory) (l : Node) : Prop :=
  n.memo.lookup l.id = none ∧ ∀ t r, s.baseline (.string l t) = some r → r = .ok (.string t)

theorem eq_of_nameKey {k : Node} {x : String} (h : Expr.nameKey? computed key = some (k, x)) :
    computed = false ∧ key = .ident k x := by
  cases computed <;> cases key <;> cases h
  exact ⟨rfl, rfl⟩

/-- A name and the literal in its place are the same key. -/
theorem parallel_part (hmn : SameBut K m n) (hspares : Spares K text literal computed key)
    (htext : ∀ k x a m₁, Expr.nameKey? computed key = some (k, x) → Gives m (answer s key) a m₁ →
      text k x = partText x a)
    (hliteral : ∀ k t, Replaced text computed key k t → Writable s n (literal k)) :
    let part := Expr.keyed (literalKey text literal) computed key
    Parallel K (fun a => (s.keyOf computed key a).map Cell.key)
      (fun b => (s.keyOf part.2 part.1 b).map Cell.key) m (answer s key) n (answer s part.1) := by
  intro part
  by_cases h : ∃ k t, Replaced text computed key k t
  · -- The name and its literal each leave nothing but their own answers, which are in `K`.
    obtain ⟨k, t, h⟩ := h
    obtain ⟨hnew, hknown⟩ := hliteral k t h
    obtain ⟨hk, hl⟩ := hspares.replaced k t h
    have hpart : part = (.string (literal k) t, true) := keyed_of_replaced h
    obtain ⟨x, hname, ht⟩ := h
    obtain ⟨rfl, rfl⟩ := eq_of_nameKey hname
    obtain ⟨a, m₁, ha, -, hlocals, hmemo⟩ := gives_ident (s := s) k x m
    obtain ⟨c, n₁, hc, hreading, hlocals', hmemo'⟩ := gives_newLiteral hnew (hknown t)
    rw [hpart]
    refine .of_gives ha hc ?_ ⟨?_, fun id hid => ?_⟩
    · rw [key_of_partText ((htext k x a m₁ rfl ha).symm.trans ht)]
      show some (Except.ok t) = some (c.reading.map Value.toKey)
      rw [hreading]
      rfl
    · rw [hlocals, hlocals', hmn.locals]
    · rw [hmemo id (by rintro rfl; exact hid hk), hmemo' id (by rintro rfl; exact hid hl),
        hmn.memo id hid]
  · have hpart : part = (key, computed) := keyed_of_not_replaced h
    rw [hpart]
    obtain ⟨hresult, hsame⟩ := agree_answer (s := s) key (hspares.kept h) m n hmn
    exact ⟨congrArg (Except.map _) hresult, hsame⟩

/-- The keys and values of an object, by the texts of the keys. -/
def readEntries (entries : Option (List (Cell × Cell))) :
    Option (List (Except Fault String × Reading)) :=
  entries.map (List.map fun (key, value) => (key.key, value.reading))

theorem readEntries_cons (key? value? : Answer) (entries : Option (List (Cell × Cell))) :
    readEntries (do return (← key?, ← value?) :: (← entries)) =
      (do return (← key?.map Cell.key, (← value?).reading) :: (← readEntries entries)) := by
  cases key? <;> cases value? <;> cases entries <;> rfl

/-- The identity of the literal for another name is not within the key. -/
theorem not_hasId_keyed {id : NodeId} (hspares : Spares K text literal computed key) (hid : K id)
    (hother : ∀ k t, Replaced text computed key k t → id ≠ (literal k).id) :
    ¬ (Expr.keyed (literalKey text literal) computed key).1.HasId id := by
  by_cases h : ∃ k t, Replaced text computed key k t
  · obtain ⟨k, t, h⟩ := h
    rw [keyed_of_replaced h]
    rintro ⟨d, hd, rfl⟩
    rcases Expr.within_iff.1 hd with rfl | ⟨c, hc, -⟩
    · exact hother k t h rfl
    · cases hc
  · rw [keyed_of_not_replaced h]
    exact fun hin => hspares.kept h id hin hid

theorem Gives.lookup_memo_of_not_hasId {e : Expr} {a : Answer} {id : NodeId}
    (h : Gives n (answer s e) a n₁) (hid : ¬ e.HasId id) :
    n₁.memo.lookup id = n.memo.lookup id := by
  have hlookup := lookup_memo_answer (s := s) hid n
  rw [h] at hlookup
  exact hlookup

theorem Writable.after_property {n₂ : Memory} {l : Node} {k v : Answer} (h : Writable s n l)
    (hkey : Spares K text literal computed key) (hvalue : ∀ id, value.HasId id → ¬ K id) (hl : K l.id)
    (hother : ∀ k t, Replaced text computed key k t → l.id ≠ (literal k).id)
    (hk : Gives n (answer s (Expr.keyed (literalKey text literal) computed key).1) k n₁)
    (hv : Gives n₁ (answer s value) v n₂) : Writable s n₂ l := by
  refine ⟨?_, h.2⟩
  rw [hv.lookup_memo_of_not_hasId fun hid => hvalue _ hid hl,
    hk.lookup_memo_of_not_hasId (not_hasId_keyed hkey hl hother), h.1]

/-- The keys of the members are as said, and no identity within their values is in `K`. -/
def SparesMembers (K : NodeId → Prop) (text : Node → String → Option String) (literal : Node → Node)
    (members : List Expr) : Prop :=
  ∀ q key value computed shorthand, .property q key value computed shorthand ∈ members →
    Spares K text literal computed key ∧ ∀ id, value.HasId id → ¬ K id

theorem SparesMembers.literal_mem {members : List Expr} (h : SparesMembers K text literal members)
    {part : Node × String} (hpart : part ∈ members.filterMap Expr.memberName?)
    (ht : (text part.1 part.2).isSome) : K (literal part.1).id := by
  obtain ⟨t, ht⟩ := Option.isSome_iff_exists.1 ht
  obtain ⟨member, hmember, hname⟩ := List.mem_filterMap.1 hpart
  cases member with
  | property q key value computed shorthand =>
    obtain ⟨hkey, -⟩ := h q key value computed shorthand hmember
    exact (hkey.replaced part.1 t ⟨part.2, hname, ht⟩).2
  | _ => cases hname

/-- The members of an object with names and with literals in their place: the runs go through them
side by side, and the literals that are still to come stay new. -/
theorem parallel_members {members : List Expr} (hmn : SameBut K m n)
    (hspares : SparesMembers K text literal members)
    (htext : ∀ m₁ k x a m₂, MemberOperand s m members m₁ (.ident k x) →
      Gives m₁ (answer s (.ident k x)) a m₂ → text k x = partText x a)
    (hliteral : ∀ part ∈ members.filterMap Expr.memberName?, (text part.1 part.2).isSome →
      Writable s n (literal part.1))
    (hdifferent : ((members.filterMap Expr.memberName?).map fun part => (literal part.1).id).Nodup) :
    Parallel K readEntries readEntries m (membersBy (answer s) s members) n
      (membersBy (answer s) s (members.map (Expr.memberWithKey (literalKey text literal)))) := by
  induction members generalizing m n with
  | nil => exact .of_pure rfl hmn
  | cons member rest ih =>
    cases member with
    | property q key value computed shorthand =>
      let named : Expr := .property q key value computed shorthand
      obtain ⟨hkey, hvalue⟩ := hspares q key value computed shorthand List.mem_cons_self
      have hsublist : (rest.filterMap Expr.memberName?).Sublist
          ((named :: rest).filterMap Expr.memberName?) :=
        (List.sublist_cons_self named rest).filterMap _
      refine Parallel.bind (parallel_part hmn hkey (fun k x a m₁ hname ha => ?_) ?_)
        fun k m₁ k' n₁ hk hk' hkeys hsame => ?_
      · obtain ⟨rfl, rfl⟩ := eq_of_nameKey hname
        exact htext m k x a m₁ .key ha
      · rintro k t ⟨x, hname, ht⟩
        refine hliteral (k, x) (List.mem_filterMap.2 ⟨_, List.mem_cons_self, hname⟩) ?_
        rw [ht]
        rfl
      refine Parallel.bind (Parallel.answer hvalue hsame) fun v m₂ v' n₂ hv hv' hvalues hsame => ?_
      have hrest : SparesMembers K text literal rest := fun q key value computed shorthand h =>
        hspares q key value computed shorthand (List.mem_cons_of_mem named h)
      refine Parallel.map (ih hsame hrest ?_ (fun part hpart ht => ?_) ?_) fun entries entries' h => ?_
      · exact fun m₃ k x a m₄ h => htext m₃ k x a m₄ (.later hk hv h)
      · refine (hliteral part (hsublist.subset hpart) ht).after_property hkey hvalue
          (hrest.literal_mem hpart ht) ?_ hk' hv'
        rintro k t' ⟨x, hname, -⟩ heq
        have hnames : (named :: rest).filterMap Expr.memberName? =
            (k, x) :: rest.filterMap Expr.memberName? := List.filterMap_cons_some hname
        rw [hnames, List.map_cons, List.nodup_cons] at hdifferent
        exact hdifferent.1 (List.mem_map.2 ⟨part, hpart, heq⟩)
      · exact hdifferent.sublist (hsublist.map _)
      · have hsame : v = v' := hvalues
        rw [readEntries_cons, readEntries_cons, hkeys, hsame, h]
    | _ => exact .of_pure rfl hmn

end

/-! ## Objects and members -/

section

variable {text : Node → String → Option String} {literal : Node → Node} {e : Expr}

theorem parallel_object {i : Node} {members : List Expr}
    (hmembers : Parallel K readEntries readEntries m (membersBy (answer s) s members) n
      (membersBy (answer s) s (members.map (Expr.memberWithKey (literalKey text literal))))) :
    Parallel K (fun a => a) (fun b => b) m (ruleBy (answer s) s (.object i members)) n
      (ruleBy (answer s) s ((Expr.object i members).withKeys (literalKey text literal))) := by
  refine hmembers.bind fun entries m₁ entries' n₁ _ _ h hsame => ?_
  cases entries with
  | none =>
    cases entries' with
    | none => exact .of_pure rfl hsame
    | some entries' => cases h
  | some entries =>
    cases entries' with
    | none => cases h
    | some entries' =>
      refine .of_pure ?_ hsame
      have hkeys := Option.some.inj h
      refine congrArg (fun r => some (s.cell (.object i members) r)) (Reading.object_congr ?_)
      rw [List.map_map, List.map_map]
      exact hkeys

theorem parallel_member {i : Node} {object key : Expr} {computed optional : Bool}
    (hobject : ∀ id, object.HasId id → ¬ K id)
    (hkey : let part := Expr.keyed (literalKey text literal) computed key
      Parallel K (fun a => (s.keyOf computed key a).map Cell.key)
        (fun b => (s.keyOf part.2 part.1 b).map Cell.key) m (answer s key) n (answer s part.1)) :
    Parallel K (fun a => a) (fun b => b) m
      (ruleBy (answer s) s (.member i object key computed optional)) n
      (ruleBy (answer s) s
        ((Expr.member i object key computed optional).withKeys (literalKey text literal))) := by
  let part := Expr.keyed (literalKey text literal) computed key
  have hnone : ∀ {m n : Memory}, SameBut K m n →
      Parallel K (fun a => a) (fun b => b) m (pure none : Evaluation Answer) n (pure none) :=
    fun hsame => .of_pure rfl hsame
  refine Parallel.bind hkey fun a m₁ b n₁ _ _ h hsame => ?_
  cases ha : s.keyOf computed key a with
  | none =>
    cases hb : s.keyOf part.2 part.1 b with
    | none => exact hnone hsame
    | some d =>
      rw [ha, hb] at h
      cases h
  | some c =>
    cases hb : s.keyOf part.2 part.1 b with
    | none =>
      rw [ha, hb] at h
      cases h
    | some d =>
      rw [ha, hb] at h
      refine Parallel.bind (Parallel.answer hobject hsame) fun o m₂ o' n₂ _ _ hsameObject hsame => ?_
      obtain rfl : o = o' := hsameObject
      cases o with
      | none => exact hnone hsame
      | some o =>
        refine .of_pure ?_ hsame
        exact congrArg (fun r => some (s.cell (.member i object key computed optional) r))
          (Reading.member_congr (Option.some.inj h))

def Changed (text : Node → String → Option String) (literal : Node → Node) (e : Expr) (id : NodeId) :
    Prop :=
  ∃ part ∈ e.partNames, (text part.1 part.2).isSome ∧ (id = part.1.id ∨ id = (literal part.1).id)

theorem changed_of_replaced {key : Expr} {computed : Bool}
    (hkey : ∀ part, Expr.nameKey? computed key = some part → part ∈ e.partNames) {k : Node} {t : String}
    (h : Replaced text computed key k t) :
    Changed text literal e k.id ∧ Changed text literal e (literal k).id := by
  obtain ⟨x, hname, ht⟩ := h
  have hsome : (text k x).isSome := by rw [ht]; rfl
  exact ⟨⟨(k, x), hkey _ hname, hsome, .inl rfl⟩, ⟨(k, x), hkey _ hname, hsome, .inr rfl⟩⟩

theorem sparesMembers_of_object {i : Node} {members : List Expr}
    (hids : (Expr.object i members).ids.Nodup)
    (hliteral : ∀ part ∈ (Expr.object i members).partNames,
      (literal part.1).id ∉ (Expr.object i members).ids) :
    SparesMembers (Changed text literal (.object i members)) text literal members := by
  intro q key value computed shorthand hmember
  let e : Expr := .object i members
  let named : Expr := .property q key value computed shorthand
  have hwithin : named.Within e := .child hmember
  have hkeyWithin : key.Within e := .step hmember (.child (by simp [Expr.children]))
  have hvalueWithin : value.Within e := .step hmember (.child (by simp [Expr.children]))
  -- A name whose identity is within the member is the key of the member.
  have hsame : ∀ part ∈ e.partNames, part.1.id ∈ named.ids →
      Expr.nameKey? computed key = some part := by
    intro part hpart hid
    obtain ⟨c, hc, hname⟩ := List.mem_filterMap.1 hpart
    have hcid : part.1.id ∈ c.ids := by
      cases c with
      | property q' key' value' computed' shorthand' =>
        obtain ⟨-, rfl⟩ := eq_of_nameKey hname
        simp [Expr.ids]
      | _ => cases hname
    have hsame : c = named := Expr.eq_of_mem_ids (Expr.nodup_children hids) hc hmember hcid hid
    rw [hsame] at hname
    exact hname
  refine ⟨⟨fun k t h => changed_of_replaced (fun part hname => ?_) h, fun h id hid => ?_⟩,
    fun id hid => ?_⟩
  · exact List.mem_filterMap.2 ⟨named, hmember, hname⟩
  · rintro ⟨part, hpart, hsome, rfl | rfl⟩
    · obtain ⟨t, ht⟩ := Option.isSome_iff_exists.1 hsome
      refine h ⟨part.1, t, part.2, hsame part hpart ?_, ht⟩
      simp [named, Expr.ids, hid.mem_ids]
    · exact hliteral part hpart (hid.of_within hkeyWithin).mem_ids
  · rintro ⟨part, hpart, hsome, rfl | rfl⟩
    · have hname := hsame part hpart (by simp [named, Expr.ids, hid.mem_ids])
      obtain ⟨-, rfl⟩ := eq_of_nameKey hname
      have hnamed : named.ids.Nodup := hids.sublist (Expr.ids_sublist_of_within hwithin)
      obtain ⟨hparts, -, -⟩ := List.nodup_append.1 hnamed
      exact (List.nodup_append.1 hparts).2.2 _ (by simp [Expr.ids]) _ hid.mem_ids rfl
    · exact hliteral part hpart (hid.of_within hvalueWithin).mem_ids

/-- The rule for a node gives the same with literals in the place of names, where the texts are those
of what the rule learns of the names. -/
theorem parallel_rule (hids : e.ids.Nodup)
    (hapart : ∀ part ∈ e.partNames, (literal part.1).id ∉ e.ids)
    (hdifferent : (e.partNames.map fun part => (literal part.1).id).Nodup)
    (hwritable : ∀ part ∈ e.partNames, Writable s m (literal part.1))
    (htext : ∀ m₁ k x a m₂, Operand s (m.asking e) e m₁ (.ident k x) →
      Gives m₁ (answer s (.ident k x)) a m₂ → text k x = partText x a) :
    let e' := e.withKeys (literalKey text literal)
    Parallel (Changed text literal e) (fun a => a) (fun b => b) (m.asking e) (ruleBy (answer s) s e)
      (m.asking e') (ruleBy (answer s) s e') := by
  intro e'
  have hasking : SameBut (Changed text literal e) (m.asking e) (m.asking e') := .of_eq rfl rfl
  cases e with
  | object i members =>
    refine parallel_object (parallel_members hasking (sparesMembers_of_object hids hapart) ?_ ?_
      hdifferent)
    · exact fun m₁ k x a m₂ h => htext m₁ k x a m₂ (.member h)
    · exact fun part hpart _ => hwritable part hpart
  | member i object key computed optional =>
    have hname : ∀ part, Expr.nameKey? computed key = some part →
        part ∈ (Expr.member i object key computed optional).partNames :=
      fun part h => Option.mem_toList.2 h
    have hspares : Spares (Changed text literal (.member i object key computed optional)) text literal
        computed key := by
      refine ⟨fun k t h => changed_of_replaced hname h, fun h id _ => ?_⟩
      rintro ⟨part, hpart, hsome, -⟩
      obtain ⟨t, ht⟩ := Option.isSome_iff_exists.1 hsome
      exact h ⟨part.1, t, part.2, Option.mem_toList.1 hpart, ht⟩
    refine parallel_member (fun id hid => ?_) (parallel_part hasking hspares ?_ ?_)
    · rintro ⟨part, hpart, -, rfl | rfl⟩
      · obtain ⟨-, rfl⟩ := eq_of_nameKey (Option.mem_toList.1 hpart)
        obtain ⟨hparts, -, -⟩ := List.nodup_append.1 hids
        exact (List.nodup_append.1 hparts).2.2 _ hid.mem_ids _ (by simp [Expr.ids]) rfl
      · exact hapart part hpart (hid.of_within (.child (by simp [Expr.children]))).mem_ids
    · intro k x a m₁ hpart ha
      obtain ⟨rfl, rfl⟩ := eq_of_nameKey hpart
      exact htext _ k x a m₁ .property ha
    · rintro k t ⟨x, hpart, -⟩
      exact hwritable (k, x) (hname _ hpart)
  | _ => exact ⟨rfl, .of_eq rfl rfl⟩

end

end Evaluation

namespace Expr

theorem withKeys_congr {e : Expr} {key? key?' : Node → String → Option Expr}
    (h : ∀ part ∈ e.partNames, key? part.1 part.2 = key?' part.1 part.2) :
    e.withKeys key? = e.withKeys key?' := by
  have hkeyed : ∀ {computed : Bool} {key : Expr},
      (∀ part, nameKey? computed key = some part → part ∈ e.partNames) →
      keyed key? computed key = keyed key?' computed key := by
    intro computed key hname
    unfold keyed
    cases hpart : nameKey? computed key with
    | none => rfl
    | some part =>
      simp only [Option.bind_some]
      rw [h part (hname part hpart)]
  cases e with
  | object n members =>
    refine congrArg (object n) (List.map_congr_left fun q hq => ?_)
    cases q with
    | property i key value computed shorthand =>
      simp only [memberWithKey]
      rw [hkeyed fun part hpart => List.mem_filterMap.2 ⟨_, hq, hpart⟩]
    | _ => rfl
  | member n o key computed optional =>
    simp only [withKeys]
    rw [hkeyed fun part hpart => Option.mem_toList.2 hpart]
  | _ => rfl

end Expr

namespace Evaluator

open Evaluation

variable {v : Evaluator} {p : Program} {e : Expr} {literal : Node → Node}

/-- The nodes that `literal` gives for the names of the parts of `e` can hold string literals: they
are new, and if the baseline knows string literals there, it knows them as what they are. -/
structure Literals (v : Evaluator) (e : Expr) (literal : Node → Node) : Prop where
  apart : ∀ part ∈ e.partNames, (literal part.1).id ∉ e.ids
  different : (e.partNames.map fun part => (literal part.1).id).Nodup
  writable : ∀ part ∈ e.partNames, Writable v.setting v.memory (literal part.1)
  baseline : ∀ key?, v.setting.baseline (e.withKeys key?) = v.setting.baseline e

/-- Literals with the texts of what the evaluation learns of the names can stand in their place. -/
theorem evaluate_eq_withKeys (hp : p.Distinct) (he : e ∈ p.nodes) (hliteral : v.Literals e literal)
    {text : Node → String → Option String}
    (htext : v.cached? e.id = none → v.setting.baseline e = none → ∀ m₁ k x a m₂,
      Operand v.setting (v.memory.asking e) e m₁ (.ident k x) →
      Gives m₁ (answer v.setting (.ident k x)) a m₂ → text k x = partText x a) :
    (v.evaluate e).1 = (v.evaluate (e.withKeys (literalKey text literal))).1 := by
  let s := v.setting
  let e' := e.withKeys (literalKey text literal)
  show ((answer s e).run v.memory).1 = ((answer s e').run v.memory).1
  have hid : e'.id = e.id := e.id_withKeys _
  cases hnew : v.memory.memo.lookup e.id with
  | some a =>
    have hnew' : v.memory.memo.lookup e'.id = some a := by rw [hid, hnew]
    rw [run_answer_of_known hnew, run_answer_of_known hnew']
  | none =>
    have hnew' : v.memory.memo.lookup e'.id = none := by rw [hid, hnew]
    rw [result_answer_of_new hnew, result_answer_of_new hnew']
    have hsame : s.baseline e' = s.baseline e := hliteral.baseline _
    cases hbaseline : s.baseline e with
    | some reading =>
      rw [fresh_of_some hbaseline, fresh_of_some (hsame.trans hbaseline), Setting.cell,
        Setting.cell, hid]
      rfl
    | none =>
      rw [fresh_of_none hbaseline, fresh_of_none (hsame.trans hbaseline)]
      exact (parallel_rule (hp.nodup_ids he) hliteral.apart hliteral.different hliteral.writable
        (htext hnew hbaseline)).result_eq

/-- **Names of parts.** An object or a member has the value that it has with string literals as
computed keys in the place of the names of its parts. The literal for a name is the text of what is
known of the name in the end, and the name itself only if nothing is known of it. What is known of it is
the value of the variable when the evaluation comes to the name, unless the answer for it was remembered
or the baseline knows it. -/
theorem evaluate_withKeys (hp : p.Distinct) (he : e ∈ p.nodes) (hliteral : v.Literals e literal) :
    let after := (v.evaluate e).2.memory
    (v.evaluate e).1 = (v.evaluate (e.withKeys fun k x =>
      (partText x (after.answer? (.ident k x))).map (.string (literal k)))).1 ∧
    ((∀ part ∈ e.partNames, after.answer? (.ident part.1 part.2) = none) →
      (v.evaluate e).1 = (v.evaluate (e.withKeys fun k x => some (.string (literal k) x))).1) ∧
    (v.cached? e.id = none → v.setting.baseline e = none → ∀ m₁ k x,
      Operand v.setting (v.memory.asking e) e m₁ (.ident k x) → m₁.memo.lookup k.id = none →
      v.setting.baseline (.ident k x) = none →
      after.answer? (.ident k x) = m₁.locals.lookup x) := by
  intro after
  let s := v.setting
  let text : Node → String → Option String := fun k x => partText x (after.answer? (.ident k x))
  have hanswer : v.cached? e.id = none → s.baseline e = none → ∀ m₁ k x a m₂,
      Operand s (v.memory.asking e) e m₁ (.ident k x) → Gives m₁ (answer s (.ident k x)) a m₂ →
      after.answer? (.ident k x) = a :=
    fun hnew hbaseline m₁ k x a m₂ h ha => h.answer?_after hp he hnew hbaseline ha
  have hspelled : (v.evaluate e).1 = (v.evaluate (e.withKeys (literalKey text literal))).1 :=
    evaluate_eq_withKeys hp he hliteral fun hnew hbaseline m₁ k x a m₂ h ha =>
      congrArg (partText x) (hanswer hnew hbaseline m₁ k x a m₂ h ha)
  refine ⟨hspelled, fun hunknown => ?_, fun hnew hbaseline m₁ k x h hk hname => ?_⟩
  · have hkeys : e.withKeys (literalKey text literal) =
        e.withKeys fun k x => some (.string (literal k) x) := Expr.withKeys_congr fun part hpart => by
      simp only [literalKey, text, hunknown part hpart]
      rfl
    rw [hspelled, hkeys]
  · obtain ⟨a, m₂, ha, hvalue, -⟩ := gives_ident (s := s) k x m₁
    rw [hanswer hnew hbaseline m₁ k x a m₂ h ha, hvalue hk hname]

def namedObject : Expr :=
  .object ⟨3, .nowhere⟩ [.property ⟨2, .nowhere⟩ (.ident ⟨0, .nowhere⟩ "a") (.bool ⟨1, .nowhere⟩ true)
    false false]

def besideObject (n : Node) : Node := ⟨n.id + 4, n.span⟩

/-- An evaluator that knows the variable `a` as the text `b`. -/
def knowingName : Evaluator :=
  (new ⟨⟨[], []⟩, .nothing, none, 0⟩).withLocal "a" ⟨.given 0, .ok (.string "b")⟩

theorem literals_namedObject {v : Evaluator} (hbaseline : v.setting.baseline = .nothing)
    (hmemo : v.memory.memo = []) : v.Literals namedObject besideObject where
  apart := by decide
  different := by decide
  writable _ _ := by
    refine ⟨by rw [hmemo]; rfl, fun t r h => ?_⟩
    rw [hbaseline] at h
    cases h
  baseline _ := by rw [hbaseline]; rfl

/-- Where `a` is known as the text `b`, the object `{ a: true }` is that with the key `b`, and where
nothing is known of `a`, it is that with the key `a`. -/
theorem evaluate_namedObject :
    let literals (t : String) : Expr :=
      namedObject.withKeys fun k _ => some (.string (besideObject k) t)
    let v := new ⟨⟨[], []⟩, .nothing, none, 0⟩
    (knowingName.evaluate namedObject).1 = (knowingName.evaluate (literals "b")).1 ∧
      (v.evaluate namedObject).1 = (v.evaluate (literals "a")).1 := by
  intro literals v
  have hp : (Program.ofExpr namedObject).Distinct := by decide
  have he := Program.mem_nodes_ofExpr.2 (.refl (a := namedObject))
  obtain ⟨hknown, -, -⟩ :=
    evaluate_withKeys hp he (v := knowingName) (literals_namedObject rfl rfl)
  obtain ⟨-, hunknown, -⟩ := evaluate_withKeys hp he (v := v) (literals_namedObject rfl rfl)
  refine ⟨hknown, (hunknown fun part hpart => ?_)⟩
  rw [List.mem_singleton.1 hpart]
  rfl

/-- It is not so that a name of a part always is its key: with `a = 'b'` before it, `{ a: 1 }` has the
key `b`. -/
theorem renamed_part :
    (evaluateSource "a = 'b'; ({ a: 1 })" none).toOption.any
      (·.any (· == .object ⟨.given 0, []⟩ [("b", .number 1.0)])) ∧
    ¬ ∀ (v : Evaluator) (p : Program) (e : Expr) (literal : Node → Node), p.Distinct → e ∈ p.nodes →
      v.Literals e literal →
      (v.evaluate e).1 = (v.evaluate (e.withKeys fun k x => some (.string (literal k) x))).1 := by
  refine ⟨by decide +kernel, fun h => ?_⟩
  have hsame := h knowingName (.ofExpr namedObject) namedObject besideObject (by decide)
    (Program.mem_nodes_ofExpr.2 .refl) (literals_namedObject rfl rfl)
  have hkey : (Except.ok (some ⟨.node 0 3, .ok (.object ⟨.node 0 3, []⟩ [("b", .bool true)])⟩) :
      Except Fault Answer) =
      .ok (some ⟨.node 0 3, .ok (.object ⟨.node 0 3, []⟩ [("a", .bool true)])⟩) := hsame
  simp at hkey

end Evaluator

end ScriptFold
