import ScriptFold.Fold
import ScriptFold.Proofs.Evaluation.Readings
import ScriptFold.Proofs.Results
import ScriptFold.Proofs.Value.Entries

/-!
Keys are unique in what is computed.

An object that a script or a macro gives holds each key once, at every depth. This is kept by
reading members, by operators and by the memory of an evaluator, so it holds of the value of a
source text.
-/

namespace ScriptFold

namespace Value

/-- Every object in the value holds each key once. -/
inductive UniqueKeys : Value → Prop
  | undefined : UniqueKeys undefined
  | null : UniqueKeys null
  | bool (b : Bool) : UniqueKeys (bool b)
  | number (x : Float) : UniqueKeys (number x)
  | string (s : String) : UniqueKeys (string s)
  | array (i : Identity) {items : List Value} (h : ∀ v ∈ items, UniqueKeys v) :
    UniqueKeys (array i items)
  | object (i : Identity) {entries : List (String × Value)}
    (hkeys : (entries.map Prod.fst).Nodup) (h : ∀ e ∈ entries, UniqueKeys e.2) :
    UniqueKeys (object i entries)

theorem uniqueKeys_ofEntries (i : Identity) {entries : List (String × Value)}
    (h : ∀ e ∈ entries, e.2.UniqueKeys) : (ofEntries i entries).UniqueKeys :=
  .object i (Assoc.nodup_keys_ofList entries) fun e he => h e (Assoc.mem_ofList he)

mutual

theorem uniqueKeys_ofJson (i : Identity) (j : Json) : (ofJson i j).UniqueKeys :=
  match j with
  | .null => .null
  | .bool b => .bool b
  | .int _ => .number _
  | .float x => .number x
  | .string s => .string s
  | .array items => .array i (uniqueKeys_ofJsonItems i 0 items)
  | .object entries => uniqueKeys_ofEntries i (uniqueKeys_ofJsonEntries i 0 entries)

theorem uniqueKeys_ofJsonItems (i : Identity) (n : Nat) (items : List Json) :
    ∀ v ∈ ofJsonItems i n items, v.UniqueKeys :=
  match items with
  | [] => by simp [ofJsonItems]
  | item :: rest => by
    rw [ofJsonItems]
    exact List.forall_mem_cons.2
      ⟨uniqueKeys_ofJson (i.part n) item, uniqueKeys_ofJsonItems i (n + 1) rest⟩

theorem uniqueKeys_ofJsonEntries (i : Identity) (n : Nat) (entries : List (String × Json)) :
    ∀ e ∈ ofJsonEntries i n entries, e.2.UniqueKeys :=
  match entries with
  | [] => by simp [ofJsonEntries]
  | (key, value) :: rest => by
    rw [ofJsonEntries]
    exact List.forall_mem_cons.2
      ⟨uniqueKeys_ofJson (i.part n) value, uniqueKeys_ofJsonEntries i (n + 1) rest⟩

end

theorem uniqueKeys_unitAt {s : String} {index : Nat} {v : Value}
    (h : unitAt s index = .ok (some v)) : v.UniqueKeys := by
  unfold unitAt at h
  split at h
  · cases h
  split at h
  · cases h
    exact .string _
  · cases h

theorem UniqueKeys.own {v w : Value} {key : String} (hv : v.UniqueKeys)
    (h : v.own key = .ok (some w)) : w.UniqueKeys := by
  cases hv with
  | undefined | null | bool | number => cases h
  | string s =>
    rw [Value.own] at h
    split at h
    · cases h
      exact .number _
    split at h
    · exact uniqueKeys_unitAt h
    · cases h
  | array i hitems =>
    rw [Value.own] at h
    split at h
    · cases h
      exact .number _
    · obtain ⟨index, -, hindex⟩ := Option.bind_eq_some_iff.1 (Except.ok.inj h)
      exact hitems w (List.mem_of_getElem? hindex)
  | object i hkeys hentries =>
    have hlookup := Except.ok.inj h
    obtain ⟨front, back, rfl, -⟩ := List.lookup_eq_some_iff.1 hlookup
    exact hentries (key, w) (by simp)

theorem UniqueKeys.get {v w : Value} {key : String} (hv : v.UniqueKeys)
    (h : v.get key = .ok w) : w.UniqueKeys := by
  unfold Value.get at h
  split at h
  · cases h
  · rename_i value hown
    cases h
    exact hv.own hown
  split at h
  · cases h
  · cases h
    exact .undefined

theorem uniqueKeys_unary {op : UnaryOp} {f : Value → Value} (hf : op.function? = some f)
    (a : Value) : (f a).UniqueKeys := by
  cases op with
  | neg | plus | bitNot =>
    cases hf
    exact .number _
  | not =>
    cases hf
    exact .bool _
  | void =>
    cases hf
    exact .undefined
  | typeof => cases hf

theorem uniqueKeys_sum (a b : Value) : (BinaryOp.sum a b).UniqueKeys := by
  unfold BinaryOp.sum
  split
  · exact .string _
  · exact .string _
  · exact .number _

theorem uniqueKeys_binary {op : BinaryOp} {f : Value → Value → Value}
    (hf : op.function? = some f) (a b : Value) : (f a b).UniqueKeys := by
  cases op with
  | exp => cases hf
  | add =>
    cases hf
    exact uniqueKeys_sum a b
  | looseEq | looseNe | strictEq | strictNe | lt | le | gt | ge =>
    cases hf
    exact .bool _
  | _ =>
    cases hf
    exact .number _

theorem uniqueKeys_logical (op : LogicalOp) {a b : Value} (ha : a.UniqueKeys) (hb : b.UniqueKeys) :
    (op.function a b).UniqueKeys := by
  unfold LogicalOp.function
  split
  · exact ha
  · exact hb

end Value

theorem Baseline.uniqueKeys_literal {e : Expr} {v : Value} (h : literal? e = some v) :
    v.UniqueKeys := by
  unfold literal? at h
  split at h <;> cases h
  · exact .null
  · exact .bool _
  · exact .number _
  · exact .string _

/-! ## Readings -/

namespace Reading

def Keyed (r : Reading) : Prop := ∀ v, r = .ok v → v.UniqueKeys

theorem keyed_ok {v : Value} (h : v.UniqueKeys) : Keyed (.ok v) := by
  rintro _ ⟨⟩
  exact h

theorem keyed_error (f : Fault) : Keyed (.error f) := by
  rintro _ ⟨⟩

theorem keyed_member (optional : Bool) {o k : Reading} (ho : o.Keyed) :
    (member optional o k).Keyed := by
  intro v h
  obtain ⟨a, ha, hread⟩ := bind_eq_ok.1 h
  by_cases hnullish : (optional && a.isNullish) = true
  · rw [if_pos hnullish] at hread
    cases hread
    exact ho _ ha
  rw [if_neg hnullish] at hread
  obtain ⟨b, -, hread⟩ := bind_eq_ok.1 hread
  cases hget : a.get b.toKey with
  | error e => rw [hget] at hread; cases hread
  | ok w =>
    rw [hget] at hread
    cases hread
    exact (ho a ha).get hget

theorem keyed_array (i : Identity) {items : List Reading} (h : ∀ r ∈ items, r.Keyed) :
    (array i items).Keyed := by
  intro v hv
  obtain ⟨vs, hvs, hv⟩ := bind_eq_ok.1 hv
  cases hv
  exact .array i (forall_of_mapM h hvs)

theorem keyed_object (i : Identity) {entries : List (Reading × Reading)}
    (h : ∀ e ∈ entries, e.2.Keyed) : (object i entries).Keyed := by
  intro v hv
  obtain ⟨vs, hvs, hv⟩ := bind_eq_ok.1 hv
  cases hv
  refine Value.uniqueKeys_ofEntries i (forall_of_mapM (fun e he w hw => ?_) hvs)
  obtain ⟨k, -, hw⟩ := bind_eq_ok.1 hw
  obtain ⟨x, hx, hw⟩ := bind_eq_ok.1 hw
  cases hw
  exact h e he x hx

theorem keyed_unary {f : Value → Value} {a : Reading} (hf : ∀ v, (f v).UniqueKeys) :
    (unary f a).Keyed := by
  intro v hv
  obtain ⟨w, -, hv⟩ := bind_eq_ok.1 hv
  cases hv
  exact hf w

theorem keyed_binary {f : Value → Value → Value} {a b : Reading} (ha : a.Keyed) (hb : b.Keyed)
    (hf : ∀ v w, v.UniqueKeys → w.UniqueKeys → (f v w).UniqueKeys) : (binary f a b).Keyed := by
  intro v hv
  obtain ⟨x, hx, hv⟩ := bind_eq_ok.1 hv
  obtain ⟨y, hy, hv⟩ := bind_eq_ok.1 hv
  cases hv
  exact hf x y (ha x hx) (hb y hy)

end Reading

/-! ## Evaluation -/

def Answer.Keyed (a : Answer) : Prop := ∀ c, a = some c → c.reading.Keyed

theorem Answer.keyed_none : Answer.Keyed none := by
  rintro _ ⟨⟩

structure Memory.Keyed (m : Memory) : Prop where
  memo : ∀ id a, m.memo.lookup id = some a → a.Keyed
  locals : ∀ x, Answer.Keyed (m.locals.lookup x)

def Setting.Keyed (s : Setting) : Prop := ∀ e r, s.baseline e = some r → r.Keyed

namespace Evaluation

variable {α : Type} {s : Setting}

/-- A computation keeps keys unique, and its results have a property. -/
def Keeps (Q : α → Prop) (x : Evaluation α) : Prop :=
  ∀ ⦃m a m'⦄, Gives m x a m' → m.Keyed → m'.Keyed ∧ Q a

theorem keeps_reading (hs : s.Keyed) : s.Keeps Reading.Keyed fun _ => True where
  baseline := hs
  literal _ _ h := Reading.keyed_ok (Baseline.uniqueKeys_literal h)
  deferred _ := Reading.keyed_error _
  macroValue _ json? := by
    refine Reading.keyed_ok ?_
    cases json? with
    | none => exact .undefined
    | some j => exact Value.uniqueKeys_ofJson _ j
  array i _ h := Reading.keyed_array i h
  object i _ h := Reading.keyed_object i fun e he => (h e he).2
  member optional _ _ ho _ := Reading.keyed_member optional ho
  unary _ _ _ hf _ := Reading.keyed_unary (Value.uniqueKeys_unary hf)
  binary _ _ _ _ hf ha hb :=
    Reading.keyed_binary ha hb fun v w _ _ => Value.uniqueKeys_binary hf v w
  logical op _ _ ha hb := Reading.keyed_binary ha hb fun _ _ => Value.uniqueKeys_logical op
  read _ _ := trivial
  handlers _ _ _ _ _ _ _ _ _ := trivial

theorem keeps_answer (hs : s.Keyed) (e : Expr) : Keeps Answer.Keyed (answer s e) := by
  intro m a m' h hm
  have hend := respects_answer (keeps_reading hs) e m ⟨hm.memo, hm.locals⟩
  rw [h] at hend
  exact ⟨⟨hend.memory.memo, hend.memory.locals⟩, hend.result a rfl⟩

end Evaluation

/-! ## Programs -/

theorem Memory.keyed_empty : Memory.empty.Keyed where
  memo := by
    rintro id a ⟨⟩
  locals x := Answer.keyed_none

theorem Baseline.uniqueKeys_global {name : String} {v : Value} (h : global? name = some v) :
    v.UniqueKeys := by
  unfold global? at h
  split at h <;> cases h
  · exact .undefined
  · exact .number _
  · exact .number _

theorem Baseline.uniqueKeys_constantFrom (index : Index) (ahead : List Entry) (e : Expr) {v : Value}
    (h : constantFrom index ahead e = some v) : v.UniqueKeys := by
  rw [constantFrom.eq_def] at h
  split at h
  · split at h
    · split at h
      · exact uniqueKeys_global h
      split at h
      · cases h
      · rename_i hfind
        obtain ⟨_, _, hfind⟩ := Option.bind_eq_some_iff.1 hfind
        have hlt := length_others_lt (List.mem_of_find?_eq_some hfind)
        exact uniqueKeys_constantFrom index _ _ h
    · cases h
  · exact uniqueKeys_literal h
termination_by ahead.length

theorem Setting.keyed_ofProgram (p : Program) (state? : Option Build.State) :
    (Setting.ofProgram p state?).Keyed := by
  intro e r h
  obtain ⟨v, hv, rfl⟩ := Option.map_eq_some_iff.1 h
  exact Reading.keyed_ok (Baseline.uniqueKeys_constantFrom _ _ e hv)

theorem Evaluator.keyed_evaluateAll {v : Evaluator} {last a : Answer} {es : List Expr}
    (hs : v.setting.Keyed) (hm : v.memory.Keyed) (hlast : last.Keyed)
    (h : v.evaluateAll last es = .ok a) : a.Keyed := by
  induction es generalizing v last with
  | nil =>
    cases h
    exact hlast
  | cons e rest ih =>
    rw [evaluateAll] at h
    split at h
    · cases h
    · rename_i b v' he
      obtain ⟨hgives, hsetting⟩ := gives_of_evaluate he
      obtain ⟨hmemory, hb⟩ := Evaluation.keeps_answer hs e hgives hm
      exact ih (hsetting ▸ hs) hmemory hb h

/-- **Keys are unique.** The value of a source text holds each key of an object once, at every
depth. -/
theorem uniqueKeys_of_lastAnswer {source : String} {state? : Option Build.State} {c : Cell}
    (h : lastAnswer source state? = .ok (some c)) : c.reading.Keyed := by
  unfold lastAnswer at h
  dsimp only at h
  split at h
  · cases h
  · cases hp : (parseProgram source).value.evaluate state? with
    | error f => rw [hp] at h; cases h
    | ok a =>
      rw [hp] at h
      cases h
      exact Evaluator.keyed_evaluateAll (Setting.keyed_ofProgram _ _) Memory.keyed_empty
        Answer.keyed_none hp c rfl

end ScriptFold
