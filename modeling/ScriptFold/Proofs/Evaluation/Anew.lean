import ScriptFold.Proofs.Evaluation.Frame
import ScriptFold.Proofs.Evaluation.LastWrite

/-!
Folding without a memo.

The expression statements of one source text are evaluated once and in order. Each node of the text
has an identity of its own, and a rule comes to an operand at most once, so an evaluation never
comes to a node that something is remembered for. An evaluator that remembers no answers gives the
same.
-/

namespace ScriptFold

namespace Expr

theorem ids_subset_idsElements {d : Expr} {es : List (Option Expr)} (h : some d ∈ es) :
    d.ids ⊆ idsElements es := by
  intro id hid
  rw [idsElements_eq]
  exact List.mem_flatMap.2 ⟨d, List.mem_filterMap.2 ⟨some d, h, rfl⟩, hid⟩

theorem ids_subset_idsAll {d : Expr} {es : List Expr} (h : ∃ q ∈ es, d.Within q) :
    d.ids ⊆ idsAll es := by
  intro id hid
  obtain ⟨q, hq, hd⟩ := h
  rw [idsAll_eq]
  exact List.mem_flatMap.2 ⟨q, hq, (ids_sublist_of_within hd).subset hid⟩

theorem Below.length_ids_lt {d e : Expr} (h : d.Below e) : d.ids.length < e.ids.length := by
  obtain ⟨c, hc, hd⟩ := h
  have hsub : d.ids.Sublist (e.children.flatMap ids) :=
    (ids_sublist_of_within hd).trans (List.sublist_flatten_of_mem (List.mem_map_of_mem hc))
  have hlength := hsub.length_le
  rw [ids_eq e, List.length_append, List.length_singleton]
  omega

theorem HasId.mem_ids {e : Expr} {id : NodeId} (h : e.HasId id) : id ∈ e.ids := by
  obtain ⟨d, hd, rfl⟩ := h
  exact mem_ids_of_within hd

end Expr

namespace Evaluation

variable {s : Setting} {m m₁ : Memory} {d e : Expr}

/-! ## Misses -/

theorem Gives.lookup_memo {a : Answer} (h : Gives m (answer s e) a m₁) {id : NodeId}
    (hid : id ∉ e.ids) : m₁.memo.lookup id = m.memo.lookup id := by
  have hlookup := lookup_memo_answer (s := s) (fun hin => hid hin.mem_ids) m
  rw [h] at hlookup
  exact hlookup

theorem ElementOperand.lookup_memo {elements : List (Option Expr)}
    (hids : (Expr.idsElements elements).Nodup) (h : ElementOperand s m elements m₁ d) :
    ∀ id ∈ d.ids, m₁.memo.lookup id = m.memo.lookup id := by
  induction h with
  | here => exact fun _ _ => rfl
  | hole _ ih => exact ih hids
  | later ha h ih =>
    obtain ⟨-, hrest, hne⟩ := List.nodup_append.1 hids
    intro id hid
    have hin := Expr.ids_subset_idsElements h.mem hid
    rw [ih hrest id hid, ha.lookup_memo fun hhere => hne id hhere id hin rfl]

theorem MemberOperand.lookup_memo {members : List Expr} (hids : (Expr.idsAll members).Nodup)
    (h : MemberOperand s m members m₁ d) :
    ∀ id ∈ d.ids, m₁.memo.lookup id = m.memo.lookup id := by
  induction h with
  | key => exact fun _ _ => rfl
  | value hk =>
    obtain ⟨hone, -, -⟩ := List.nodup_append.1 hids
    obtain ⟨hkv, -, -⟩ := List.nodup_append.1 hone
    obtain ⟨-, -, hne⟩ := List.nodup_append.1 hkv
    exact fun id hid => hk.lookup_memo fun hkey => hne id hkey id hid rfl
  | later hk hv h ih =>
    obtain ⟨-, hrest, hne⟩ := List.nodup_append.1 hids
    intro id hid
    obtain ⟨q, hq, hd⟩ := h.within
    have hin := Expr.ids_subset_idsAll ⟨q, hq, .child hd⟩ hid
    rw [ih hrest id hid,
      hv.lookup_memo fun hvalue => hne id (by simp [Expr.ids, hvalue]) id hin rfl,
      hk.lookup_memo fun hkey => hne id (by simp [Expr.ids, hkey]) id hin rfl]

/-- A rule comes to every operand at most once: what was done before says nothing about it. -/
theorem Operand.lookup_memo (hids : e.ids.Nodup) (h : Operand s m e m₁ d) :
    ∀ id ∈ d.ids, m₁.memo.lookup id = m.memo.lookup id := by
  cases h with
  | property | assigned | left | first | argument | test => exact fun _ _ => rfl
  | element h =>
    obtain ⟨hids, -, -⟩ := List.nodup_append.1 hids
    exact h.lookup_memo hids
  | member h =>
    obtain ⟨hids, -, -⟩ := List.nodup_append.1 hids
    exact h.lookup_memo hids
  | object hk =>
    obtain ⟨hids, -, -⟩ := List.nodup_append.1 hids
    obtain ⟨-, -, hne⟩ := List.nodup_append.1 hids
    exact fun id hid => hk.lookup_memo fun hproperty => hne id hid id hproperty rfl
  | right _ hleft | second hleft =>
    obtain ⟨hids, -, -⟩ := List.nodup_append.1 hids
    obtain ⟨-, -, hne⟩ := List.nodup_append.1 hids
    exact fun id hid => hleft.lookup_memo fun hin => hne id hin id hid rfl
  | consequent htest =>
    obtain ⟨hids, -, -⟩ := List.nodup_append.1 hids
    obtain ⟨hids, -, -⟩ := List.nodup_append.1 hids
    obtain ⟨-, -, hne⟩ := List.nodup_append.1 hids
    exact fun id hid => htest.lookup_memo fun hin => hne id hin id hid rfl
  | alternate htest =>
    obtain ⟨hids, -, -⟩ := List.nodup_append.1 hids
    obtain ⟨-, -, hne⟩ := List.nodup_append.1 hids
    exact fun id hid => htest.lookup_memo fun hin => hne id (by simp [hin]) id hid rfl

/-- In a tree whose nodes are new to the memory, an evaluation never comes to a node that something
is remembered for. -/
theorem Visits.unknown (hids : e.ids.Nodup) (hm : Fresh e.ids m) (h : Visits s m e m₁ d) :
    m₁.memo.lookup d.id = none := by
  induction h with
  | @refl m e => exact hm e.id e.id_mem_ids
  | step _ _ hoperand _ ih =>
    have hsub := Expr.ids_sublist_of_within hoperand.below.within
    refine ih (hids.sublist hsub) fun id hid => ?_
    rw [hoperand.lookup_memo hids id hid]
    exact hm id (hsub.subset hid)

/-- `VisitsAll s m es m₁ d`: the evaluation of some nodes in order, up to the first fault, comes to
the node `d` with the memory `m₁`. -/
inductive VisitsAll (s : Setting) : Memory → List Expr → Memory → Expr → Prop
  | here {m m₁ : Memory} {d e : Expr} {rest : List Expr} (h : Visits s m e m₁ d) :
    VisitsAll s m (e :: rest) m₁ d
  | later {m m₁ m₂ : Memory} {d e : Expr} {rest : List Expr} {a : Answer}
    (ha : Gives m (answer s e) a m₁) (h : VisitsAll s m₁ rest m₂ d) :
    VisitsAll s m (e :: rest) m₂ d

theorem VisitsAll.unknown {es : List Expr} (hids : (Expr.idsAll es).Nodup)
    (hm : Fresh (Expr.idsAll es) m) (h : VisitsAll s m es m₁ d) : m₁.memo.lookup d.id = none := by
  induction h with
  | here h =>
    obtain ⟨hone, -, -⟩ := List.nodup_append.1 hids
    exact h.unknown hone fun id hid => hm id (List.mem_append_left _ hid)
  | later ha _ ih =>
    obtain ⟨-, hrest, hne⟩ := List.nodup_append.1 hids
    refine ih hrest fun id hid => ?_
    rw [ha.lookup_memo fun hin => hne id hin id hid rfl]
    exact hm id (List.mem_append_right _ hid)

/-! ## Evaluation anew -/

/-- The answer for a node without a memo: operands are evaluated anew wherever a rule comes to them.
Operands have less nodes than their node, so the last case does not occur (`answerAnew_eq`). -/
def answerAnew (s : Setting) (e : Expr) : Evaluation Answer := do
  note (.asked e.nodeName)
  fresh s e <| ruleBy (fun d =>
    if d.ids.length < e.ids.length then answerAnew s d else return none) s e
termination_by e.ids.length

theorem answerAnew_eq (e : Expr) : answerAnew s e =
    (do note (.asked e.nodeName); fresh s e (ruleBy (answerAnew s) s e)) := by
  have hrule : ruleBy (fun d => if d.ids.length < e.ids.length then answerAnew s d else return none)
      s e = ruleBy (answerAnew s) s e := ruleBy_congr fun d hd => if_pos hd.length_ids_lt
  rw [answerAnew, hrule]

theorem run_answerAnew (e : Expr) (m : Memory) : (answerAnew s e).run m =
    (fresh s e (ruleBy (answerAnew s) s e)).run (m.asking e) := by
  have hnote : Gives m (note (.asked e.nodeName)) () (m.asking e) := gives_note.2 rfl
  rw [answerAnew_eq, run_bind_of_gives hnote]

/-- The memories have the same variables, and the same was done before; they may remember different
answers. -/
def SameButMemo (m n : Memory) : Prop := m.locals = n.locals ∧ m.trace = n.trace

/-- Where an evaluation comes only to nodes that nothing is remembered for, it goes as without a
memo. -/
theorem agree_answerAnew (e : Expr) (m : Memory)
    (h : ∀ m₁ d, Visits s m e m₁ d → m₁.memo.lookup d.id = none) :
    Agree SameButMemo m (answer s e) (answerAnew s e) := by
  induction e using Expr.below_induction generalizing m with
  | h e ih =>
    have hm : m.memo.lookup e.id = none := h m e .refl
    have hfresh : Agree SameButMemo (m.asking e) (fresh s e (ruleBy (answer s) s e))
        (fresh s e (ruleBy (answerAnew s) s e)) := by
      refine agree_fresh ?_ ?_ ?_ fun hbaseline m₁ d hd => ?_
      · exact fun m n h => h.1
      · exact fun m n notes h => ⟨h.1, congrArg (notes ++ ·) h.2⟩
      · intro name _ m n a h
        cases a with
        | none => exact h
        | some c => exact ⟨congrArg (Assoc.put name c ·) h.1, h.2⟩
      · exact ih d hd.below m₁ fun m₂ d' hd' => h m₂ d' (.step hm hbaseline hd hd')
    intro n hn
    have hasking : SameButMemo (m.asking e) (n.asking e) :=
      ⟨hn.1, congrArg (Event.asked e.nodeName :: ·) hn.2⟩
    obtain ⟨hresult, hafter⟩ := hfresh (n.asking e) hasking
    rw [run_answerAnew, run_answer_of_new hm]
    rcases hrun : (fresh s e (ruleBy (answer s) s e)).run (m.asking e) with ⟨f | a, m₁⟩
    · rw [hrun] at hresult hafter
      exact ⟨hresult, hafter⟩
    · rw [hrun] at hresult hafter
      exact ⟨hresult, hafter⟩

end Evaluation

/-! ## Programs -/

def Evaluator.evaluateAllAnew (v : Evaluator) (last : Answer) : List Expr → Except Fault Answer
  | [] => .ok last
  | e :: rest =>
    match (Evaluation.answerAnew v.setting e).run v.memory with
    | (.error fault, _) => .error fault
    | (.ok a, m) => evaluateAllAnew ⟨v.setting, m⟩ a rest

theorem Evaluator.evaluateAll_eq_anew (s : Setting) (es : List Expr) (last : Answer) (m n : Memory)
    (hmn : Evaluation.SameButMemo m n)
    (h : ∀ m₁ d, Evaluation.VisitsAll s m es m₁ d → m₁.memo.lookup d.id = none) :
    (⟨s, m⟩ : Evaluator).evaluateAll last es = (⟨s, n⟩ : Evaluator).evaluateAllAnew last es := by
  induction es generalizing last m n with
  | nil => rfl
  | cons e rest ih =>
    obtain ⟨hresult, hafter⟩ :=
      Evaluation.agree_answerAnew e m (fun m₁ d hd => h m₁ d (.here hd)) n hmn
    unfold evaluateAll evaluateAllAnew evaluate
    dsimp only
    rcases hm : (Evaluation.answer s e).run m with ⟨f | a, m₁⟩ <;>
      rcases hn : (Evaluation.answerAnew s e).run n with ⟨f' | b, n₁⟩ <;>
      rw [hm, hn] at hresult hafter <;> cases hresult
    · rfl
    · exact ih a m₁ n₁ hafter fun m₂ d hd => h m₂ d (.later hm hd)

def Program.evaluateAnew (p : Program) (state? : Option Build.State) : Except Fault Answer :=
  (Evaluator.new (.ofProgram p state?)).evaluateAllAnew none p.expressions

def lastAnswerAnew (source : String) (state? : Option Build.State) : Except FoldError Answer :=
  let read := parseProgram source
  if read.diagnostics.any Diagnostic.isError then .error (.unreadable read.diagnostics)
  else (read.value.evaluateAnew state?).mapError .fault

/-- As `evaluateSource`, without a memo. -/
def evaluateSourceAnew (source : String) (state? : Option Build.State) :
    Except FoldError (Option Value) := do
  match ← lastAnswerAnew source state? with
  | none => return none
  | some c => return some (← c.reading.mapError .fault)

/-- As `foldSource`, without a memo. -/
def foldSourceAnew (print : Json.Printer) (source : String) (state? : Option Build.State) :
    Except FoldError (Option Expr) := do
  match ← lastAnswerAnew source state? with
  | none => return none
  | some c => return some (← (Literal.ofReading print c.reading).mapError .literal)

theorem Stmt.idsAll_expressions_sublist (body : List Stmt) (span : Span) :
    (Expr.idsAll (Program.mk body span).expressions).Sublist (Stmt.idsAll body) := by
  induction body with
  | nil => exact .refl _
  | cons stmt rest ih =>
    cases stmt with
    | expr _ e => exact (List.Sublist.refl _).append ih
    | _ => exact ih.trans (List.sublist_append_right _ _)

theorem unknown_of_visits (source : String) (state? : Option Build.State) {m : Memory} {d : Expr}
    (h : Evaluation.VisitsAll (.ofProgram (parseProgram source).value state?) .empty
      (parseProgram source).value.expressions m d) : m.memo.lookup d.id = none := by
  have hsub := Stmt.idsAll_expressions_sublist (parseProgram source).value.body
    (parseProgram source).value.span
  have hids := (Grammar.parseProgram_numbered source).nodup
  exact h.unknown (hids.sublist hsub) fun _ _ => rfl

/-- **Folding does not need a memo.** While the expression statements of a source text are evaluated
in order, nothing is remembered for any node when the evaluation comes to it, and the value and the
literal are the same without a memo. -/
theorem fold_eq_anew (print : Json.Printer) (source : String) (state? : Option Build.State) :
    (∀ m d, Evaluation.VisitsAll (.ofProgram (parseProgram source).value state?) .empty
      (parseProgram source).value.expressions m d → m.memo.lookup d.id = none) ∧
    evaluateSource source state? = evaluateSourceAnew source state? ∧
    foldSource print source state? = foldSourceAnew print source state? := by
  have hevaluate : (parseProgram source).value.evaluate state? =
      (parseProgram source).value.evaluateAnew state? :=
    Evaluator.evaluateAll_eq_anew _ _ none .empty .empty ⟨rfl, rfl⟩
      fun m d => unknown_of_visits source state?
  have hlast : lastAnswer source state? = lastAnswerAnew source state? := by
    unfold lastAnswer lastAnswerAnew
    dsimp only
    rw [hevaluate]
  refine ⟨fun m d => unknown_of_visits source state?, ?_, ?_⟩
  · unfold evaluateSource evaluateSourceAnew
    generalize lastAnswer source state? = last at hlast
    subst hlast
    rfl
  · unfold foldSource foldSourceAnew
    generalize lastAnswer source state? = last at hlast
    subst hlast
    rfl

end ScriptFold
