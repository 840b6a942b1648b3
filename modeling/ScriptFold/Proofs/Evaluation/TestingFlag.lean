import ScriptFold.Proofs.Evaluation.OptionalChains
import ScriptFold.Proofs.Index.Imports
import ScriptFold.Proofs.Value.OfJson

/-!
Two ways to the flag for tests.

One macro answers whether the configuration for all packages asks for tests, another one gives this
configuration to scripts. A script that reads the flag there by itself comes to the same: what the
first macro finds in the JSON value is what the members of its value read as.
-/

namespace ScriptFold

open Build (State)

/-- Both tables of the options hold each key once, and so do the objects in them. -/
structure Build.Options.UniqueKeys (o : Build.Options) : Prop where
  userConfigs : (Json.object o.userConfigs).UniqueKeys
  globalConfig : (Json.object o.globalConfig).UniqueKeys

/-! ## Calls of macros -/

theorem BuildMacro.name_injective : Function.Injective BuildMacro.name := by
  intro m m'
  cases m <;> cases m' <;> decide

theorem Build.handlers_of_arity_zero {m : BuildMacro} (hm : m.arity = 0) (n : Node) (callee : Expr)
    (optional : Bool) (state : State) :
    handlers m (.call n callee [] optional) state = .ok (state.answer m []) := by
  cases m <;> cases hm <;> rfl

/-- The callee is a name for a macro that an import declares, and the name is not registered as a
configuration for run time. -/
structure Program.NamesMacro (p : Program) (state : State) (m : BuildMacro) (callee : Expr) :
    Prop where
  imported : (Index.ofProgram p).Imports BuildMacro.source (.named m.name) callee
  registered : ∀ name, callee.name? = some name → state.runtimeImport? name ≠ some .config

instance (p : Program) (state : State) (m : BuildMacro) (callee : Expr) :
    Decidable (p.NamesMacro state m callee) :=
  decidable_of_iff ((Index.ofProgram p).isReference callee ∧
    (((Index.ofProgram p).binding? callee).any
      (·.kind == .imported BuildMacro.source (.named m.name))) ∧
    callee.name?.all fun name => state.runtimeImport? name ≠ some .config) <| by
  constructor
  · rintro ⟨href, hbinding, hregistered⟩
    obtain ⟨⟨name, kind, span⟩, hbinding, hkind⟩ := (Option.any_eq_true _ _).1 hbinding
    obtain rfl := beq_iff_eq.1 hkind
    refine ⟨⟨href, name, span, hbinding⟩, fun name hname => ?_⟩
    rw [hname] at hregistered
    exact of_decide_eq_true hregistered
  · rintro ⟨⟨href, name, span, hbinding⟩, hregistered⟩
    refine ⟨href, by rw [hbinding]; exact beq_self_eq_true _, ?_⟩
    cases hname : callee.name? with
    | none => rfl
    | some name => exact decide_eq_true (hregistered name hname)

namespace Evaluation

variable {p : Program} {state : State} {m : BuildMacro} {callee : Expr}

theorem macro?_of_namesMacro (h : p.NamesMacro state m callee) :
    macro? (.ofProgram p) callee = some m := by
  have hrefers : (fun m' : BuildMacro =>
      (Index.ofProgram p).referencesImport BuildMacro.source callee m'.name) =
        fun m' => decide (m' = m) := by
    funext m'
    rw [Bool.eq_iff_iff, Index.referencesImport_of_not_member h.imported.memberByName?,
      decide_eq_true_iff]
    constructor
    · rintro ⟨what, hwhat, hexport⟩
      cases h.imported.unique hwhat
      rcases Imported.isExport_iff.1 hexport with (htakes | ⟨⟨⟩, -⟩) | ⟨⟨⟩, -⟩
      exact BuildMacro.name_injective (Imported.named.inj htakes).symm
    · rintro rfl
      exact ⟨_, h.imported, Imported.isExport_iff.2 (.inl (.inl rfl))⟩
  unfold macro?
  rw [hrefers]
  cases m <;> rfl

theorem deferredName?_of_namesMacro (h : p.NamesMacro state m callee) :
    deferredName? state callee = none := by
  refine Option.filter_eq_none_iff.2 fun name hname => ?_
  simpa using h.registered name hname

end Evaluation

/-! ## What evaluators find -/

namespace Baseline.IsStock

variable {p : Program} {baseline : Baseline}

theorem call (h : baseline.IsStock p) (n : Node) (callee : Expr) (arguments : List Expr)
    (optional : Bool) : baseline (.call n callee arguments optional) = none := by
  rcases h with rfl | rfl
  · rfl
  · exact constant_of_not_name rfl

theorem string (h : baseline.IsStock p) {n : Node} {t : String} {r : Reading}
    (hr : baseline (.string n t) = some r) : r = .ok (.string t) := by
  rcases h with rfl | rfl
  · cases hr
  · rw [constant_of_not_name rfl] at hr
    exact (Option.some.inj hr).symm

end Baseline.IsStock

/-- Evaluations work on the program with one of the stock baselines, and macro calls are answered
from the state. -/
structure Setting.Serves (s : Setting) (p : Program) (state : State) : Prop where
  index : s.index = .ofProgram p
  baseline : s.baseline.IsStock p
  context : s.context = some (.ofState state)

namespace Evaluation

/-- A node that nothing is remembered for within is known, whatever else was learnt before, and its
cell has this reading. -/
def Finds (s : Setting) (e : Expr) (r : Reading) : Prop :=
  ∀ m, Fresh e.ids m → ∃ c, ((⟨s, m⟩ : Evaluator).evaluate e).1 = .ok (some c) ∧ c.reading = r

variable {s : Setting} {p : Program} {state : State} {n : Node} {object key callee : Expr}
  {optional : Bool} {m : Memory} {a : Answer} {r x y : Reading} {name : String}

theorem finds_string (hs : s.Serves p state) (n : Node) (t : String) :
    Finds s (.string n t) (.ok (.string t)) := by
  intro m hm
  obtain ⟨c, m₁, hc, hreading, -⟩ := gives_newLiteral (s := s) (l := n) (t := t)
    (hm n.id (by simp [Expr.ids])) fun r hr => hs.baseline.string hr
  exact ⟨c, congrArg Prod.fst hc, hreading⟩

theorem finds_call {b : BuildMacro} (hs : s.Serves p state) (hb : p.NamesMacro state b callee)
    (harity : b.arity = 0) (n : Node) (optional : Bool) :
    ∃ i, Finds s (.call n callee [] optional) (.ok (.ofJson? i (state.answer b []))) := by
  let e : Expr := .call n callee [] optional
  refine ⟨s.identity e, fun m hm => ?_⟩
  have hnew : m.memo.lookup e.id = none := hm e.id (Expr.id_mem_ids e)
  have hvalue : macroValue s e (state.answer b []) =
      .ofJson? (s.identity e) (state.answer b []) := by
    cases state.answer b [] <;> rfl
  refine ⟨s.cell e (.ok (macroValue s e (state.answer b []))), ?_, congrArg Except.ok hvalue⟩
  refine Evaluator.evaluate_of_rule (v := ⟨s, m⟩) (m := { m with
    trace := .called b e.nodeName :: (m.asking e).trace }) hnew (hs.baseline.call _ _ _ _) ?_
  show (call s e callee).run (m.asking e) = _
  unfold call
  rw [hs.context]
  simp only [Context.ofState, deferredName?_of_namesMacro hb, hs.index, macro?_of_namesMacro hb,
    Build.handlers_of_arity_zero harity, e]
  rfl

theorem member_of_new (hs : s.Serves p state) {computed : Bool}
    (hnodup : (Expr.member n object key computed optional).ids.Nodup)
    (hm : Fresh (Expr.member n object key computed optional).ids m) (ho : Finds s object x)
    (ha : ((⟨s, m⟩ : Evaluator).evaluate key).1 = .ok a)
    (hr : keyReading? computed key a = some y) :
    ∃ c, ((⟨s, m⟩ : Evaluator).evaluate (.member n object key computed optional)).1 =
      .ok (some c) ∧ c.reading = .member optional x y := by
  rw [Expr.ids] at hnodup hm
  obtain ⟨hboth, -, -⟩ := List.nodup_append.1 hnodup
  obtain ⟨-, hkey, hne⟩ := List.nodup_append.1 hboth
  have hgives : Gives m (answer s key) a ((answer s key).run m).2 := Prod.ext ha rfl
  have hobject : Fresh object.ids ((answer s key).run m).2 :=
    fresh_after hkey hgives (fun id hid => hm id (by simp [hid]))
      fun id hid hid' => hne id hid id hid' rfl
  obtain ⟨c, hc, rfl⟩ := ho _ hobject
  exact Evaluator.evaluate_member (v := ⟨s, m⟩) (remembers_of_unknown (hm n.id (by simp)))
    hs.baseline ha hr hc

theorem finds_member (hs : s.Serves p state) (ho : Finds s object x) (hk : Finds s key y)
    (hnodup : (Expr.member n object key true optional).ids.Nodup) :
    Finds s (.member n object key true optional) (.member optional x y) := by
  intro m hm
  obtain ⟨c, hc, hreading⟩ := hk m fun id hid => hm id (by simp [Expr.ids, hid])
  refine member_of_new hs hnodup hm ho hc ?_
  rw [← hreading]
  rfl

theorem member_of_name (hs : s.Serves p state) (hp : p.Distinct) {k : Node}
    (he : .member n object (.ident k name) false optional ∈ p.nodes) (ho : Finds s object x)
    (hm : Fresh (Expr.member n object (.ident k name) false optional).ids m)
    (hname : m.locals.lookup name = none) :
    ∃ c, ((⟨s, m⟩ : Evaluator).evaluate (.member n object (.ident k name) false optional)).1 =
      .ok (some c) ∧ c.reading = .member optional x (.ok (.string name)) := by
  have hnew : m.memo.lookup k.id = none := hm k.id (by simp [Expr.ids])
  obtain ⟨hkey, -⟩ := Evaluator.evaluate_partName (v := ⟨s, m⟩) hp hs.baseline he
    (remembers_of_unknown hnew) hname
  exact member_of_new hs (hp.nodup_ids he) hm ho hkey rfl

end Evaluation

/-! ## The flag -/

/-- The answer for the node is known, and it reads as the value without a fault. -/
def Evaluator.Reads (v : Evaluator) (e : Expr) (w : Value) : Prop :=
  ∃ c, (v.evaluate e).1 = .ok (some c) ∧ c.reading = .ok w

theorem Evaluator.Reads.unique {v : Evaluator} {e : Expr} {w w' : Value} (h : v.Reads e w)
    (h' : v.Reads e w') : w = w' := by
  obtain ⟨c, hc, hw⟩ := h
  obtain ⟨c', hc', hw'⟩ := h'
  cases hc.symm.trans hc'
  exact Except.ok.inj (hw.symm.trans hw')

/-- A field that is read off the value of a JSON value, if that is not missing, is true for a test
exactly if the field of the JSON value is. -/
theorem Reading.member_ofJson? (i : Identity) {j? : Option Json} {key : String}
    (hkey : Value.PlainKey key) (hunique : ∀ j, j? = some j → j.UniqueKeys) :
    ∃ w, Reading.member true (.ok (.ofJson? i j?)) (.ok (.string key)) = .ok w ∧
      w.isTruthy = (j?.bind (·.field? key)).any Json.isTruthy := by
  cases j? with
  | none => exact ⟨.undefined, rfl, rfl⟩
  | some j =>
    cases hnullish : (Value.ofJson i j).isNullish with
    | true =>
      refine ⟨_, Reading.member_of_isNullish rfl hnullish, ?_⟩
      cases j with
      | null => rfl
      | _ => cases hnullish
    | false =>
      obtain ⟨i', hget⟩ := Value.get_ofJson i hkey (hunique j rfl) hnullish
      refine ⟨.ofJson? i' (j.field? key), ?_, Value.isTruthy_ofJson? i' _⟩
      show (if (true && (Value.ofJson i j).isNullish) = true then _ else _) = _
      rw [hnullish]
      exact congrArg (Except.mapError Fault.read) hget

theorem plainKey_source : Value.PlainKey BuildMacro.source :=
  ⟨by decide, by decide, fun p => by cases p <;> decide +kernel⟩

theorem plainKey_isTesting : Value.PlainKey "isTesting" :=
  ⟨by decide, by decide, fun p => by cases p <;> decide +kernel⟩

/-- **Two ways to the flag for tests.** In a program that imports two macros, `flag` calls the one for
tests, and `field` reads `isTesting` off the entry `@embroider/macros` of the configuration that the
other one gives. Both are known and can be read, whatever the configuration holds there: the call is
true or false as the state asks for tests, and a test takes the value of the member for the same.
The evaluators, which may be one, have not learnt of these nodes, and `isTesting` is no variable
with a value. -/
theorem testing_flag {p : Program} {state : State} {v v' : Evaluator} {testing config : Expr}
    (hp : p.Distinct) (hkeys : state.options.UniqueKeys)
    (hv : v.setting.Serves p state) (hv' : v'.setting.Serves p state)
    (htesting : p.NamesMacro state .isTesting testing)
    (hconfig : p.NamesMacro state .getGlobalConfig config)
    {n n₁ n₂ n₃ n₄ n₅ : Node} {o o' : Bool} :
    let flag : Expr := .call n testing [] o
    let field : Expr := .member n₁ (.member n₂ (.call n₃ config [] o')
      (.string n₄ "@embroider/macros") true false) (.ident n₅ "isTesting") false true
    field ∈ p.nodes → Evaluation.Fresh flag.ids v.memory → Evaluation.Fresh field.ids v'.memory →
      v'.memory.locals.lookup "isTesting" = none →
      v.Reads flag (.bool state.isTesting) ∧
      (∃ w, v'.Reads field w ∧ w.isTruthy = state.isTesting) ∧
      (v.Reads flag (.bool true) ↔ ∃ w, v'.Reads field w ∧ w.isTruthy = true) ∧
      (v.Reads flag (.bool false) ↔ ∃ w, v'.Reads field w ∧ w.isTruthy = false) := by
  intro flag field hfield hnew hnew' hname
  have hflag : v.Reads flag (.bool state.isTesting) := by
    obtain ⟨i, hfinds⟩ := Evaluation.finds_call hv htesting rfl n o
    exact hfinds v.memory hnew
  have hread : ∃ w, v'.Reads field w ∧ w.isTruthy = state.isTesting := by
    obtain ⟨i, hcall⟩ := Evaluation.finds_call hv' hconfig rfl n₃ o'
    -- The entry of the configuration is read off an object, which is not missing.
    obtain ⟨i', hget⟩ := Value.get_ofJson i plainKey_source hkeys.globalConfig rfl
    have hentry : Reading.member false (.ok (.ofJson? i (state.answer .getGlobalConfig [])))
        (.ok (.string BuildMacro.source)) =
          .ok (.ofJson? i' (state.options.globalConfig.lookup BuildMacro.source)) :=
      congrArg (Except.mapError Fault.read) hget
    have hobject : .member n₂ (.call n₃ config [] o') (.string n₄ BuildMacro.source) true false ∈
        p.nodes := p.mem_nodes_of_within hfield (.child List.mem_cons_self)
    have hfinds := Evaluation.finds_member hv' hcall (Evaluation.finds_string hv' n₄ _)
      (hp.nodup_ids hobject)
    rw [hentry] at hfinds
    obtain ⟨c, hc, hreading⟩ := Evaluation.member_of_name hv' hp hfield hfinds hnew' hname
    have hunique : ∀ j, state.options.globalConfig.lookup BuildMacro.source = some j →
        j.UniqueKeys := fun j hj => hkeys.globalConfig.field? hj
    obtain ⟨w, hw, htruthy⟩ := Reading.member_ofJson? i' plainKey_isTesting hunique
    exact ⟨w, ⟨c, hc, hreading.trans hw⟩, htruthy⟩
  have hiff (b : Bool) : v.Reads flag (.bool b) ↔ ∃ w, v'.Reads field w ∧ w.isTruthy = b := by
    obtain ⟨w, hw, htruthy⟩ := hread
    constructor
    · intro h
      cases hflag.unique h
      exact ⟨w, hw, htruthy⟩
    · rintro ⟨w', hw', rfl⟩
      rwa [hw'.unique hw, htruthy]
  exact ⟨hflag, hread, hiff true, hiff false⟩

/-- A module that asks for tests in both ways, by one macro under a name of its own. -/
def flagSource : String :=
  "import { isTesting as t, getGlobalConfig } from '@embroider/macros'; t(); " ++
    "getGlobalConfig()['@embroider/macros']?.isTesting"

/-- The flag is a number, and the name of the macro for tests is registered for something else. -/
def flagState : State :=
  ⟨{ Build.Options.empty with
    globalConfig := [(BuildMacro.source, .object [("isTesting", .int 1)])] },
    "/app/index.js", [("isTesting", .config)]⟩

def asksForTests (p : Program) (state : State) : Expr → Bool
  | .call _ callee [] _ => decide (p.NamesMacro state .isTesting callee)
  | _ => false

def readsFlag (p : Program) (state : State) : Expr → Bool
  | .member _ (.member _ (.call _ callee [] _) (.string _ "@embroider/macros") true false)
      (.ident _ "isTesting") false true => decide (p.NamesMacro state .getGlobalConfig callee)
  | _ => false

/-- Both are true in the module. -/
theorem testing_flag_of_number :
    let p := (parseProgram flagSource).value
    let v := Evaluator.new (.ofProgram p (some flagState))
    p.Distinct ∧ flagState.options.UniqueKeys ∧ v.setting.Serves p flagState ∧
      ∃ flag ∈ p.nodes, ∃ field ∈ p.nodes,
        asksForTests p flagState flag ∧ readsFlag p flagState field ∧
        v.Reads flag (.bool true) ∧ ∃ w, v.Reads field w ∧ w.isTruthy = true := by
  intro p v
  have hp : p.Distinct := Program.distinct_parseProgram _
  have hkeys : flagState.options.UniqueKeys :=
    ⟨.object .nil (List.forall_mem_nil _), .object (by decide) (List.forall_mem_singleton.2
      (.object (by decide) (List.forall_mem_singleton.2 (.int 1))))⟩
  have hv : v.setting.Serves p flagState := ⟨rfl, .inr rfl, rfl⟩
  obtain ⟨hcalls, hreads⟩ : p.nodes.any (asksForTests p flagState) ∧
      p.nodes.any (readsFlag p flagState) := by decide +kernel
  obtain ⟨flag, hflag, hcall⟩ := List.any_eq_true.1 hcalls
  obtain ⟨field, hfield, hread⟩ := List.any_eq_true.1 hreads
  refine ⟨hp, hkeys, hv, flag, hflag, field, hfield, hcall, hread, ?_⟩
  unfold asksForTests at hcall
  unfold readsFlag at hread
  split at hcall
  · rename_i n testing o
    split at hread
    · have h := testing_flag (n := n) (o := o) hp hkeys hv hv (of_decide_eq_true hcall)
        (of_decide_eq_true hread) hfield (fun _ _ => rfl) (fun _ _ => rfl) rfl
      have htrue : v.Reads (.call n testing [] o) (.bool true) := h.1
      exact ⟨htrue, h.2.2.1.1 htrue⟩
    · cases hread
  · cases hcall

end ScriptFold
