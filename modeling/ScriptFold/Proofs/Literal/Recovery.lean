import ScriptFold.Proofs.Evaluation.LastWrite
import ScriptFold.Proofs.Literal.Spelling
import ScriptFold.Proofs.Literal.Stripped
import ScriptFold.Proofs.Value.Entries

/-!
Evaluating the literal of a value.

A literal holds constants only, so that evaluating it needs nothing but the baseline. The value
that comes back equals the value that was written, without what a JSON text cannot hold.
-/

namespace ScriptFold

theorem Value.keys_of_beqEntries {es fs : List (String × Value)}
    (h : Value.beqEntries es fs = true) : es.map Prod.fst = fs.map Prod.fst := by
  induction es generalizing fs with
  | nil =>
    cases fs with
    | nil => rfl
    | cons f fs => cases h
  | cons e es ih =>
    cases fs with
    | nil => cases h
    | cons f fs =>
      obtain ⟨k, x⟩ := e
      obtain ⟨l, y⟩ := f
      simp only [Value.beqEntries, Bool.and_eq_true, beq_iff_eq] at h
      rw [List.map_cons, List.map_cons, h.1.1, ih h.2]

/-! ## Readings -/

namespace Reading

theorem array_ok (i : Identity) {items : List Reading} {values : List Value}
    (h : items = values.map .ok) : array i items = .ok (.array i values) := by
  have hmap : (values.map (fun v => (.ok v : Reading))).mapM (fun item => item) = .ok values := by
    clear h
    induction values with
    | nil => rfl
    | cons v rest ih =>
      rw [List.map_cons, List.mapM_cons, ih]
      rfl
  rw [array, h, hmap]
  rfl

theorem object_ok (i : Identity) {readings : List (Reading × Reading)}
    {entries : List (String × Value)}
    (h : readings = entries.map fun e => (.ok (.string e.1), .ok e.2)) :
    object i readings = .ok (.ofEntries i entries) := by
  have hread (f : Reading × Reading → Except Fault (String × Value))
      (hf : ∀ e : String × Value, f (.ok (.string e.1), .ok e.2) = .ok e) :
      readings.mapM f = .ok entries := by
    subst h
    induction entries with
    | nil => rfl
    | cons e rest ih =>
      rw [List.map_cons, List.mapM_cons, ih, hf]
      rfl
  rw [object, hread _ fun e => rfl]
  rfl

end Reading

/-! ## Constants -/

theorem Baseline.constant_of_not_name {index : Index} {e : Expr} (h : e.name? = none) :
    constant index e = (literal? e).map .ok := by
  cases e with
  | ident n name => cases h
  | _ => rw [constant, constantFrom]; simp

namespace Evaluation

variable {s : Setting} {index : Index} {m : Memory}

/-- A node that the baseline knows and that is new to the memory is read as the baseline says. -/
theorem gives_baseline {e : Expr} {r : Reading} (he : s.baseline e = some r)
    (hm : m.memo.lookup e.id = none) :
    ∃ c m', Gives m (answer s e) (some c) m' ∧ c.reading = r := by
  have hfresh (rule : Evaluation Answer) :
      Gives (m.asking e) (fresh s e rule) (some (s.cell e r)) (m.asking e) := by
    rw [fresh, he]
    exact gives_pure.2 ⟨rfl, rfl⟩
  refine ⟨s.cell e r, (m.asking e).knowing e (some (s.cell e r)), ?_, rfl⟩
  rw [answer.eq_def]
  exact gives_once.2 (.inr ⟨hm, _, hfresh _, rfl⟩)

theorem gives_literal (hs : s.baseline = .constant index) {e : Expr} {v : Value}
    (he : Baseline.literal? e = some v) (hm : m.memo.lookup e.id = none) :
    ∃ c m', Gives m (answer s e) (some c) m' ∧ c.reading = .ok v := by
  refine gives_baseline ?_ hm
  have hname : e.name? = none := by
    cases e with
    | ident n name => cases he
    | _ => rfl
  rw [hs, Baseline.constant_of_not_name hname, he]
  rfl

/-- A node that is no constant and new to the memory has the answer that its rule gives. -/
theorem gives_by_rule (hs : s.baseline = .constant index) {e : Expr} (hname : e.name? = none)
    (he : Baseline.literal? e = none) (hm : m.memo.lookup e.id = none)
    {rule : Evaluation Answer} {a : Answer} {m₁ : Memory} (h : Gives (m.asking e) rule a m₁) :
    Gives m (once s e rule) a (m₁.knowing e a) := by
  refine gives_once.2 (.inr ⟨hm, m₁, ?_, rfl⟩)
  rw [fresh, hs, Baseline.constant_of_not_name hname, he]
  exact h

/-- The cell can be read, and its value equals a given one. -/
def Recovers (v : Value) (c : Cell) : Prop := ∃ w, c.reading = .ok w ∧ (w == v) = true

theorem spells_number {e : Expr} {j : Json} {y : Float} (he : Spells e j)
    (hj : j.number? = some y) :
    (∃ n, e = .number n y) ∨ ∃ n k x, e = .unary n .neg (.number k x) ∧ -x = y := by
  cases he with
  | null | bool | string | array | object => cases hj
  | number n h =>
    cases h.symm.trans hj
    exact .inl ⟨n, rfl⟩
  | negative n k h =>
    cases h.symm.trans hj
    exact .inr ⟨n, k, _, rfl, rfl⟩

theorem number_recovers (hs : s.baseline = .constant index) {x y : Float} (hxy : (y == x) = true)
    {e : Expr} {j : Json} (he : Spells e j) (hj : j.number? = some y) (hids : e.ids.Nodup)
    (hm : Fresh e.ids m) :
    ∃ c m', Gives m (answer s e) (some c) m' ∧ Recovers (.number x) c := by
  rcases spells_number he hj with ⟨n, rfl⟩ | ⟨n, k, z, rfl, rfl⟩
  · obtain ⟨c, m', hc, hreading⟩ := gives_literal hs rfl (hm _ (Expr.id_mem_ids _))
    exact ⟨c, m', hc, .number y, hreading, hxy⟩
  · have hargument : (m.asking (.unary n .neg (.number k z))).memo.lookup k.id = none :=
      hm k.id (by simp [Expr.ids])
    obtain ⟨c, m₁, hc, hreading⟩ := gives_literal hs (e := .number k z) rfl hargument
    let size := s.cell (.unary n .neg (.number k z)) (.unary (fun a => .number (-a.toNumber)) c.reading)
    have hsize : size.reading = .ok (.number (-z)) := by
      simp only [size, Setting.cell, hreading]
      rfl
    refine ⟨size, m₁.knowing (.unary n .neg (.number k z)) (some size), ?_, .number (-z), hsize, hxy⟩
    simp only [answer]
    refine gives_by_rule hs rfl rfl (hm _ (Expr.id_mem_ids _)) ?_
    exact (gives_known (by rfl)).2 (.inr ⟨c, m₁, hc, gives_pure.2 ⟨rfl, rfl⟩⟩)

theorem fresh_after {e : Expr} {a : Answer} {m' : Memory} {F : List NodeId} (hids : e.ids.Nodup)
    (h : Gives m (answer s e) a m') (hF : Fresh F m) (hdisjoint : ∀ id ∈ F, id ∉ e.ids) :
    Fresh F m' := by
  intro id hid
  rw [(logged_answer e hids).frame m a m' h id (hdisjoint id hid)]
  exact hF id hid

theorem gives_element {e : Expr} {es : List (Option Expr)} {c : Cell} {cells : List Cell}
    {m₁ m' : Memory} (hc : Gives m (answer s e) (some c) m₁)
    (hcells : Gives m₁ (answerElements s es) (some cells) m') :
    Gives m (answerElements s (some e :: es)) (some (c :: cells)) m' := by
  simp only [answerElements]
  exact gives_bind.2 ⟨_, _, hc, gives_bind.2 ⟨_, _, hcells, gives_pure.2 ⟨rfl, rfl⟩⟩⟩

theorem gives_member {n k : Node} {key : String} {e : Expr} {ms : List Expr} {c d : Cell}
    {cells : List (Cell × Cell)} {m₁ m₂ m' : Memory}
    (hd : Gives m (answer s (.string k key)) (some d) m₁)
    (hc : Gives m₁ (answer s e) (some c) m₂)
    (hcells : Gives m₂ (answerMembers s ms) (some cells) m') :
    Gives m (answerMembers s (.property n (.string k key) e false false :: ms))
      (some ((d, c) :: cells)) m' := by
  simp only [answerMembers]
  exact gives_bind.2 ⟨_, _, hd, gives_bind.2 ⟨_, _, hc,
    gives_bind.2 ⟨_, _, hcells, gives_pure.2 ⟨rfl, rfl⟩⟩⟩⟩

mutual

/-- **The literal of a value evaluates to the value**, as far as a JSON text can hold it. -/
theorem answer_recovers (hs : s.baseline = .constant index) (v : Value) {m : Memory} {e : Expr}
    {j : Json} (hj : v.toJson = .ok j) (he : Spells e j) (hkeys : v.UniqueKeys)
    (hids : e.ids.Nodup) (hm : Fresh e.ids m) :
    ∃ c m', Gives m (answer s e) (some c) m' ∧ Recovers v.stripped c :=
  match v with
  | .undefined => by cases hj
  | .null => by
    cases hj
    cases he with
    | null n =>
      obtain ⟨c, m', hc, hreading⟩ := gives_literal hs rfl (hm _ (Expr.id_mem_ids _))
      exact ⟨c, m', hc, _, hreading, rfl⟩
    | number n h | negative n k h => cases h
  | .bool b => by
    cases hj
    cases he with
    | bool n b =>
      obtain ⟨c, m', hc, hreading⟩ := gives_literal hs rfl (hm _ (Expr.id_mem_ids _))
      exact ⟨c, m', hc, _, hreading, beq_self_eq_true b⟩
    | number n h | negative n k h => cases h
  | .string t => by
    cases hj
    cases he with
    | string n t =>
      obtain ⟨c, m', hc, hreading⟩ := gives_literal hs rfl (hm _ (Expr.id_mem_ids _))
      exact ⟨c, m', hc, _, hreading, beq_self_eq_true t⟩
    | number n h | negative n k h => cases h
  | .number x => by
    rw [Value.toJson] at hj
    obtain ⟨y, hy, hyx⟩ := Value.number_of_numberJson hj
    exact number_recovers hs hyx he hy hids hm
  | .array i items => by
    obtain ⟨js, hjs, hj⟩ := bind_eq_ok.1 hj
    cases hj
    cases he with
    | number n h | negative n k h => cases h
    | array n hitems =>
      rename_i es
      cases hkeys with
      | array _ hkeys =>
      rw [Expr.ids] at hids hm
      obtain ⟨cells, m₁, ws, hcells, hreads, heq⟩ :=
        elements_recover hs items hjs hitems hkeys (List.nodup_append.1 hids).1
          (m := m.asking (.array n es)) fun id hid => hm id (List.mem_append_left _ hid)
      let c := s.cell (.array n es) (.array (s.identity (.array n es)) (cells.map (·.reading)))
      have hc : c.reading = .ok (.array (s.identity (.array n es)) ws) :=
        Reading.array_ok _ hreads
      refine ⟨c, m₁.knowing (.array n es) (some c), ?_, _, hc, heq⟩
      simp only [answer]
      refine gives_by_rule hs rfl rfl (hm _ (by simp [Expr.id, Expr.node])) ?_
      exact (gives_known (by rfl)).2 (.inr ⟨cells, m₁, hcells, gives_pure.2 ⟨rfl, rfl⟩⟩)
  | .object i entries => by
    obtain ⟨js, hjs, hj⟩ := bind_eq_ok.1 hj
    cases hj
    cases he with
    | number n h | negative n k h => cases h
    | object n hentries =>
      rename_i ms
      cases hkeys with
      | object _ hnodup hkeys =>
      rw [Expr.ids] at hids hm
      obtain ⟨cells, m₁, ws, hcells, hreads, heq⟩ :=
        members_recover hs entries hjs hentries hkeys (List.nodup_append.1 hids).1
          (m := m.asking (.object n ms)) fun id hid => hm id (List.mem_append_left _ hid)
      let c := s.cell (.object n ms) (.object (s.identity (.object n ms))
        (cells.map fun (key, value) => (key.reading, value.reading)))
      have hws : (ws.map Prod.fst).Nodup := by
        rw [Value.keys_of_beqEntries heq]
        exact hnodup.sublist (Value.keys_strippedEntries entries)
      have hc : c.reading = .ok (.object (s.identity (.object n ms)) ws) := by
        refine (Reading.object_ok _ hreads).trans ?_
        rw [Value.ofEntries, Assoc.ofList_of_nodup hws]
      refine ⟨c, m₁.knowing (.object n ms) (some c), ?_, _, hc, heq⟩
      simp only [answer]
      refine gives_by_rule hs rfl rfl (hm _ (by simp [Expr.id, Expr.node])) ?_
      exact (gives_known (by rfl)).2 (.inr ⟨cells, m₁, hcells, gives_pure.2 ⟨rfl, rfl⟩⟩)

theorem elements_recover (hs : s.baseline = .constant index) (items : List Value) {m : Memory}
    {es : List (Option Expr)} {js : List Json} (hj : Value.toJsonItems items = .ok js)
    (he : SpellsItems es js) (hkeys : ∀ v ∈ items, v.UniqueKeys)
    (hids : (Expr.idsElements es).Nodup) (hm : Fresh (Expr.idsElements es) m) :
    ∃ cells m' ws, Gives m (answerElements s es) (some cells) m' ∧
      cells.map Cell.reading = ws.map .ok ∧
      Value.beqItems ws (Value.strippedItems items) = true :=
  match items with
  | [] => by
    cases hj
    cases he
    refine ⟨[], m, [], ?_, rfl, rfl⟩
    simp only [answerElements]
    exact gives_pure.2 ⟨rfl, rfl⟩
  | item :: rest => by
    obtain ⟨hitem, hrest⟩ := List.forall_mem_cons.1 hkeys
    -- The first element, with the JSON values of the others.
    have hfirst : ∃ e es' j js', es = some e :: es' ∧ js = j :: js' ∧ SpellsItems es' js' ∧
        Value.toJsonItems rest = .ok js' ∧ ∃ c m₁ v, Gives m (answer s e) (some c) m₁ ∧
          Recovers v c ∧ Value.strippedItems (item :: rest) = v :: Value.strippedItems rest := by
      by_cases hundefined : item = .undefined
      · subst hundefined
        obtain ⟨js', hjs', hj⟩ := bind_eq_ok.1 hj
        cases hj
        cases he with
        | cons hnull hes =>
        cases hnull with
        | number n h | negative n k h => cases h
        | null n =>
          obtain ⟨c, m₁, hc, hreading⟩ := gives_literal hs (e := .null n) rfl
            (hm _ (List.mem_append_left _ (Expr.id_mem_ids _)))
          exact ⟨_, _, _, js', rfl, rfl, hes, hjs', c, m₁, .null, hc, ⟨_, hreading, rfl⟩, rfl⟩
      · rw [Value.toJsonItems_cons hundefined] at hj
        obtain ⟨j, hj₁, hj⟩ := bind_eq_ok.1 hj
        obtain ⟨js', hjs', hj⟩ := bind_eq_ok.1 hj
        cases hj
        cases he with
        | cons hspells hes =>
        obtain ⟨c, m₁, hc, hrecovers⟩ := answer_recovers hs item hj₁ hspells hitem
          (List.nodup_append.1 hids).1 fun id hid => hm id (List.mem_append_left _ hid)
        refine ⟨_, _, j, js', rfl, rfl, hes, hjs', c, m₁, _, hc, hrecovers, ?_⟩
        rw [Value.strippedItems]
        exact hundefined
    obtain ⟨e, es', j, js', rfl, rfl, hes', hjs', c, m₁, v, hc, ⟨w, hw, hwv⟩, hstripped⟩ := hfirst
    rw [Expr.idsElements] at hids hm
    obtain ⟨hidsE, hidsRest, hdisjoint⟩ := List.nodup_append.1 hids
    have hm₁ : Fresh (Expr.idsElements es') m₁ :=
      fresh_after hidsE hc (fun id hid => hm id (List.mem_append_right _ hid))
        fun id hid hmem => hdisjoint id hmem id hid rfl
    obtain ⟨cells, m', ws, hcells, hreads, heq⟩ :=
      elements_recover hs rest hjs' hes' hrest hidsRest hm₁
    refine ⟨c :: cells, m', w :: ws, gives_element hc hcells, ?_, ?_⟩
    · rw [List.map_cons, List.map_cons, hw, hreads]
    · rw [hstripped, Value.beqItems, Bool.and_eq_true]
      exact ⟨hwv, heq⟩

theorem members_recover (hs : s.baseline = .constant index) (entries : List (String × Value))
    {m : Memory} {ms : List Expr} {js : List (String × Json)}
    (hj : Value.toJsonEntries entries = .ok js) (he : SpellsEntries ms js)
    (hkeys : ∀ e ∈ entries, e.2.UniqueKeys) (hids : (Expr.idsAll ms).Nodup)
    (hm : Fresh (Expr.idsAll ms) m) :
    ∃ cells m' ws, Gives m (answerMembers s ms) (some cells) m' ∧
      (cells.map fun c => (c.1.reading, c.2.reading)) =
        ws.map (fun e => (.ok (.string e.1), .ok e.2)) ∧
      Value.beqEntries ws (Value.strippedEntries entries) = true :=
  match entries with
  | [] => by
    cases hj
    cases he
    refine ⟨[], m, [], ?_, rfl, rfl⟩
    simp only [answerMembers]
    exact gives_pure.2 ⟨rfl, rfl⟩
  | (key, value) :: rest => by
    obtain ⟨hvalue, hrest⟩ := List.forall_mem_cons.1 hkeys
    by_cases hundefined : value = .undefined
    · subst hundefined
      exact members_recover hs rest hj he hrest hids hm
    rw [Value.toJsonEntries_cons hundefined] at hj
    obtain ⟨j, hj₁, hj⟩ := bind_eq_ok.1 hj
    obtain ⟨js', hjs', hj⟩ := bind_eq_ok.1 hj
    cases hj
    cases he with
    | cons n k hspells hms =>
    rename_i e ms'
    rw [Expr.idsAll, Expr.ids] at hids hm
    obtain ⟨hidsMember, hidsRest, hdisjoint⟩ := List.nodup_append.1 hids
    obtain ⟨hidsPair, -, -⟩ := List.nodup_append.1 hidsMember
    obtain ⟨hidsKey, hidsE, hkey⟩ := List.nodup_append.1 hidsPair
    obtain ⟨d, m₁, hd, hreading⟩ := gives_literal hs (e := .string k key) rfl
      (hm _ (by simp [Expr.ids, Expr.id, Expr.node]))
    have hm₁ : Fresh e.ids m₁ :=
      fresh_after hidsKey hd (fun id hid => hm id (by simp [hid]))
        fun id hid hmem => hkey id hmem id hid rfl
    obtain ⟨c, m₂, hc, w, hw, hwv⟩ := answer_recovers hs value hj₁ hspells hvalue hidsE hm₁
    have hm₂ : Fresh (Expr.idsAll ms') m₂ := by
      have hrest₁ : Fresh (Expr.idsAll ms') m₁ :=
        fresh_after hidsKey hd (fun id hid => hm id (List.mem_append_right _ hid))
          fun id hid hmem => hdisjoint id (by simp [hmem]) id hid rfl
      exact fresh_after hidsE hc hrest₁ fun id hid hmem => hdisjoint id (by simp [hmem]) id hid rfl
    obtain ⟨cells, m', ws, hcells, hreads, heq⟩ :=
      members_recover hs rest hjs' hms hrest hidsRest hm₂
    refine ⟨(d, c) :: cells, m', (key, w) :: ws, gives_member hd hc hcells, ?_, ?_⟩
    · rw [List.map_cons, List.map_cons, hreading, hw, hreads]
    · rw [Value.strippedEntries, Value.beqEntries, Bool.and_eq_true, Bool.and_eq_true]
      · exact ⟨⟨beq_self_eq_true key, hwv⟩, heq⟩
      · exact hundefined

end

end Evaluation

end ScriptFold
