import ScriptFold.Proofs.Evaluation.Leavings

/-!
Sub-trees that are skipped.

Which nodes within a node its evaluation passes over follows from what is remembered afterwards
(`PassedOver`). The evaluation comes to none of these nodes, and if nothing was remembered before and
there is no fault, it comes to all others. So what is skipped leaves nothing behind.
-/

namespace ScriptFold

namespace Evaluation

variable {s : Setting} {p : Program} {after before m : Memory} {c d e x : Expr}

/-- `Omits s after e c`: the evaluation of the node `e` omits the node `c` below it with all nodes
within it, where `after` is the memory afterwards. -/
inductive Omits (s : Setting) (after : Memory) : Expr → Expr → Prop
  | known {e c : Expr} (h : (s.baseline e).isSome) (hc : c ∈ e.children) : Omits s after e c
  | right {n : Node} {op : BinaryOp} {left right : Expr}
    (hleft : after.memo.lookup left.id = some none) : Omits s after (.binary n op left right) right
  | second {n : Node} {op : LogicalOp} {left right : Expr}
    (hleft : after.memo.lookup left.id = some none) : Omits s after (.logical n op left right) right
  | object {n : Node} {object property : Expr} {computed optional : Bool} {k : Answer}
    (hproperty : after.memo.lookup property.id = some k)
    (hkey : s.keyOf computed property k = none) :
    Omits s after (.member n object property computed optional) object
  /-- Both branches, where the test has no value. -/
  | branches {n : Node} {test consequent alternate c : Expr} {t : Answer}
    (htest : after.memo.lookup test.id = some t)
    (hread : ∀ cell v, t = some cell → cell.reading ≠ .ok v) (hc : c ∈ [consequent, alternate]) :
    Omits s after (.conditional n test consequent alternate) c
  | otherBranch {n : Node} {test consequent alternate : Expr} {cell : Cell} {v : Value}
    (htest : after.memo.lookup test.id = some (some cell)) (hread : cell.reading = .ok v) :
    Omits s after (.conditional n test consequent alternate)
      (if v.isTruthy then alternate else consequent)
  /-- In an object, what is below the first member that is not a property, and all members after
  it. -/
  | later {n : Node} {front back : List Expr} {q c : Expr} (hq : q.isProperty = false)
    (hc : c ∈ q.children ∨ c ∈ back) : Omits s after (.object n (front ++ q :: back)) c
  | target {n : Node} {op : AssignOp} {target value : Expr} :
    Omits s after (.assign n op target value) target
  /-- The value that is assigned, where the assignment is not simple or its target is no name. -/
  | value {n : Node} {op : AssignOp} {target value : Expr}
    (h : (Expr.assign n op target value).assigned? = none) :
    Omits s after (.assign n op target value) value
  | binary {n : Node} {op : BinaryOp} {left right c : Expr} (hop : op.function? = none)
    (hc : c ∈ [left, right]) : Omits s after (.binary n op left right) c
  | unary {n : Node} {op : UnaryOp} {argument : Expr} (hop : op.function? = none) :
    Omits s after (.unary n op argument) argument
  | call {n : Node} {callee c : Expr} {xs : List Expr} {optional : Bool} (hc : c ∈ callee :: xs) :
    Omits s after (.call n callee xs optional) c
  | sequence {n : Node} {es : List Expr} {c : Expr} (hc : c ∈ es) : Omits s after (.sequence n es) c
  | spread {n : Node} {argument : Expr} : Omits s after (.spread n argument) argument
  | property {n : Node} {key value c : Expr} {computed shorthand : Bool} (hc : c ∈ [key, value]) :
    Omits s after (.property n key value computed shorthand) c

/-- `PassedOver s after e d`: the evaluation of `e` passes over the node `d` within `e`, where `after`
is the memory afterwards. Members of objects are passed over, but not their keys and values. -/
inductive PassedOver (s : Setting) (after : Memory) : Expr → Expr → Prop
  | member {n : Node} {members : List Expr} {q : Expr} (hq : q ∈ members) :
    PassedOver s after (.object n members) q
  | skipped {e c d : Expr} (h : Omits s after e c) (hd : d.Within c) : PassedOver s after e d
  | operand {e c d : Expr} (hc : c ∈ e.operands) (h : PassedOver s after c d) :
    PassedOver s after e d

theorem below_of_omits (h : Omits s after e c) : c.Below e := by
  cases h with
  | known _ hc => exact .of_mem_children hc
  | @later n front back q c _ hc =>
    have hq : q ∈ front ++ q :: back := List.mem_append_right front List.mem_cons_self
    rcases hc with hc | hc
    · exact ⟨q, hq, .child hc⟩
    · exact .of_mem_children (List.mem_append_right front (List.mem_cons_of_mem q hc))
  | branches _ _ hc => exact .of_mem_children (List.mem_cons_of_mem _ hc)
  | otherBranch =>
    refine .of_mem_children ?_
    split <;> simp [Expr.children]
  | call hc | sequence hc | binary _ hc | property hc => exact .of_mem_children hc
  | _ => exact .of_mem_children (by simp [Expr.children])

theorem below_of_passedOver (h : PassedOver s after e d) : d.Below e := by
  induction h with
  | member hq => exact .of_mem_children hq
  | skipped h hd => exact (below_of_omits h).of_within hd
  | operand hc _ ih => exact (Expr.below_of_mem_operands hc).of_within ih.within

/-! ## What is taken is not skipped -/

theorem branch_of_unread {t : Answer} (consequent alternate : Expr)
    (h : ∀ cell v, t = some cell → cell.reading ≠ .ok v) : branch t consequent alternate = [] := by
  cases t with
  | none => rfl
  | some cell =>
    cases hread : cell.reading with
    | ok v => exact absurd hread (h cell v rfl)
    | error f => exact branch_of_fault consequent alternate hread

theorem not_mem_taken_of_omits (hchildren : e.children.Nodup) (hobject : ∀ n ms, e ≠ .object n ms)
    (hbaseline : s.baseline e = none) (h : Omits s after e c) :
    c ∈ e.operands ∧ c ∉ taken s after e := by
  cases h with
  | known h =>
    rw [hbaseline] at h
    cases h
  | @right n op left _ hleft =>
    have hne : left ≠ c := by simpa [Expr.children] using hchildren
    refine ⟨by simp [Expr.operands, Expr.children], ?_⟩
    rw [taken, Memory.answer?_eq hleft]
    split <;> simp [hne.symm]
  | @second n op left _ hleft =>
    have hne : left ≠ c := by simpa [Expr.children] using hchildren
    refine ⟨by simp [Expr.operands, Expr.children], ?_⟩
    rw [taken, Memory.answer?_eq hleft]
    simp [hne.symm]
  | @object n _ property computed optional k hproperty hkey =>
    have hne : c ≠ property := by simpa [Expr.children] using hchildren
    refine ⟨by simp [Expr.operands], ?_⟩
    rw [taken, Memory.answer?_eq hproperty, hkey]
    simp [hne]
  | @branches n test consequent alternate _ t htest hread hc =>
    have hne : c ≠ test := fun h => (List.nodup_cons.1 hchildren).1 (h ▸ hc)
    refine ⟨List.mem_cons_of_mem _ hc, ?_⟩
    rw [taken, Memory.answer?_eq htest, branch_of_unread _ _ hread]
    simp [hne]
  | @otherBranch n test consequent alternate cell v htest hread =>
    rw [taken, Memory.answer?_eq htest, branch_of_read _ _ hread]
    simp only [Expr.children, List.nodup_cons, List.mem_cons, List.not_mem_nil, or_false, not_or]
      at hchildren
    obtain ⟨⟨hne, hne'⟩, hne'', -⟩ := hchildren
    split
    · exact ⟨by simp [Expr.operands, Expr.children], by simp [Ne.symm hne', Ne.symm hne'']⟩
    · exact ⟨by simp [Expr.operands, Expr.children], by simp [Ne.symm hne, hne'']⟩
  | later => exact absurd rfl (hobject _ _)
  | @target n op _ value =>
    have hne : c ≠ value := by simpa [Expr.children] using hchildren
    refine ⟨by simp [Expr.operands, Expr.children], ?_⟩
    rw [taken_assign]
    split <;> simp [hne]
  | value h =>
    refine ⟨by simp [Expr.operands, Expr.children], ?_⟩
    rw [taken_assign, h]
    exact List.not_mem_nil
  | binary hop hc => exact ⟨hc, by simp [taken, hop]⟩
  | unary hop => exact ⟨by simp [Expr.operands, Expr.children], by simp [taken, hop]⟩
  | call hc | sequence hc | property hc => exact ⟨hc, List.not_mem_nil⟩
  | spread => exact ⟨by simp [Expr.operands, Expr.children], List.not_mem_nil⟩

theorem mem_of_mem_takeWhile {α : Type} {P : α → Bool} {front back : List α} {a b : α}
    (ha : P a = false) (hb : b ∈ (front ++ a :: back).takeWhile P) : b ∈ front := by
  rw [List.takeWhile_append] at hb
  split at hb
  · rw [List.takeWhile_cons_of_neg (by simp [ha]), List.append_nil] at hb
    exact hb
  · exact (List.takeWhile_sublist P).subset hb

theorem not_within_of_omits (hids : e.ids.Nodup) (hbaseline : s.baseline e = none)
    (h : Omits s after e c) (hx : x ∈ taken s after e) (hd : d.Within c) : ¬ d.Within x := by
  intro hdx
  have hchildren := Expr.nodup_children hids
  by_cases hobject : ∃ n ms, e = .object n ms
  · obtain ⟨n, ms, rfl⟩ := hobject
    cases h with
    | known h =>
      rw [hbaseline] at h
      cases h
    | @later _ front back q c hq hc =>
      obtain ⟨w, hw, hxw⟩ := List.mem_flatMap.1 hx
      have hfront : w ∈ front := mem_of_mem_takeWhile hq hw
      obtain ⟨q', hback, hcq⟩ : ∃ q' ∈ q :: back, c.Within q' := by
        rcases hc with hc | hc
        · exact ⟨q, List.mem_cons_self, .child hc⟩
        · exact ⟨c, List.mem_cons_of_mem q hc, .refl⟩
      rw [Expr.children, List.flatMap_append] at hchildren
      obtain ⟨-, -, hne⟩ := List.nodup_append.1 hchildren
      have hidw : d.id ∈ w.ids := Expr.mem_ids_of_within (hdx.trans (.child hxw))
      have hidq : d.id ∈ q'.ids := Expr.mem_ids_of_within (hd.trans hcq)
      exact hne _ (List.mem_flatMap.2 ⟨w, hfront, hidw⟩) _ (List.mem_flatMap.2 ⟨q', hback, hidq⟩) rfl
  · have hobject : ∀ n ms, e ≠ .object n ms := fun n ms h => hobject ⟨n, ms, h⟩
    obtain ⟨hc, hnot⟩ :=
      not_mem_taken_of_omits (Expr.nodup_of_nodup_ids hchildren) hobject hbaseline h
    have heq := Expr.eq_of_mem_ids (Expr.nodup_operands hids) hc
      ((taken_sublist s after e).subset hx) (Expr.mem_ids_of_within hd) (Expr.mem_ids_of_within hdx)
    rw [heq] at hnot
    exact hnot hx

theorem within_of_mem_visited (h : d ∈ visited s before after e) : d.Within e :=
  Expr.within_of_mem_walk ((visited_sublist_walk s before after e).subset h)

theorem mem_visited_iff : d ∈ visited s before after e ↔ before.memo.lookup e.id = none ∧
    (d = e ∨ s.baseline e = none ∧ ∃ c ∈ taken s after e, d ∈ visited s before after c) := by
  cases h : before.memo.lookup e.id with
  | some a =>
    rw [visited_of_known (by simp [h])]
    simp
  | none =>
  cases hbaseline : s.baseline e with
  | some reading =>
    rw [visited_of_some h hbaseline]
    simp
  | none =>
    rw [visited_of_none h hbaseline]
    simp

theorem not_passedOver (hids : e.ids.Nodup) (hd : d ∈ visited s before after e) :
    ¬ PassedOver s after e d := by
  induction e using Expr.below_induction with
  | h e ih =>
    intro h
    obtain ⟨-, rfl | ⟨hbaseline, x, hx, hdx⟩⟩ := mem_visited_iff.1 hd
    · exact (below_of_passedOver h).ne rfl
    have hbelow := below_of_mem_taken hx
    have hwithin := within_of_mem_visited hdx
    cases h with
    | @member n members _ hq =>
      -- The operand stands in a member, so that member is `d` itself.
      obtain ⟨w, hw, hxw⟩ := List.mem_flatMap.1 ((taken_sublist s after _).subset hx)
      have hdw : d.Below w := ⟨x, hxw, hwithin⟩
      have heq := Expr.eq_of_mem_ids (Expr.nodup_children hids) hq hw d.id_mem_ids
        (Expr.mem_ids_of_within hdw.within)
      exact hdw.ne heq
    | skipped h hdc => exact not_within_of_omits hids hbaseline h hx hdc hwithin
    | @operand _ c _ hc h =>
      have heq := Expr.eq_of_mem_ids (Expr.nodup_operands hids) hc
        ((taken_sublist s after e).subset hx)
        (Expr.mem_ids_of_within (below_of_passedOver h).within) (Expr.mem_ids_of_within hwithin)
      subst heq
      exact ih c hbelow (Expr.nodup_of_within hids hbelow.within) hdx h

/-! ## What is not skipped is taken -/

theorem mem_takeWhile_or {α : Type} {P : α → Bool} {l : List α} {b : α} (hb : b ∈ l) :
    b ∈ l.takeWhile P ∨ ∃ front a back, l = front ++ a :: back ∧ P a = false ∧ (b = a ∨ b ∈ back) := by
  induction l with
  | nil => cases hb
  | cons a rest ih =>
    cases ha : P a with
    | false => exact .inr ⟨[], a, rest, rfl, ha, List.mem_cons.1 hb⟩
    | true =>
      rw [List.takeWhile_cons_of_pos ha]
      rcases List.mem_cons.1 hb with rfl | hb
      · exact .inl List.mem_cons_self
      · rcases ih hb with hb | ⟨front, a', back, heq, ha', hb⟩
        · exact .inl (List.mem_cons_of_mem a hb)
        · exact .inr ⟨a :: front, a', back, by rw [heq, List.cons_append], ha', hb⟩

theorem exists_taken_of_member {n : Node} {members : List Expr} {q : Expr} (hq : q ∈ members)
    (hd : d.Within q) (h : ¬ PassedOver s after (.object n members) d) :
    ∃ x ∈ taken s after (.object n members), d.Within x := by
  have hbelow : d.Below q := by
    rcases Expr.within_iff.1 hd with rfl | hd
    · exact absurd (.member hq) h
    · exact hd
  obtain ⟨c, hc, hdc⟩ := hbelow
  rcases mem_takeWhile_or (P := Expr.isProperty) hq with htake | ⟨front, first, back, rfl, hfirst, heq⟩
  · exact ⟨c, List.mem_flatMap.2 ⟨q, htake, hc⟩, hdc⟩
  · rcases heq with rfl | hback
    · exact absurd (.skipped (.later hfirst (.inl hc)) hdc) h
    · exact absurd (.skipped (.later hfirst (.inr hback)) hd) h

theorem mem_taken_of_branch {n : Node} {test consequent alternate b : Expr} {t : Answer}
    (ht : after.memo.lookup test.id = some t) (hb : b ∈ [consequent, alternate])
    (homit : ¬ Omits s after (.conditional n test consequent alternate) b) :
    b ∈ taken s after (.conditional n test consequent alternate) := by
  rw [taken, Memory.answer?_eq ht]
  by_cases hread : ∃ cell v, t = some cell ∧ cell.reading = .ok v
  · obtain ⟨cell, v, rfl, hread⟩ := hread
    have hother : b ≠ if v.isTruthy then alternate else consequent := by
      rintro rfl
      exact homit (.otherBranch ht hread)
    rw [branch_of_read _ _ hread]
    cases htruthy : v.isTruthy with
    | true =>
      rw [if_pos htruthy] at hother
      rcases List.mem_pair.1 hb with rfl | rfl
      · simp
      · exact absurd rfl hother
    | false =>
      rw [if_neg (by simp [htruthy])] at hother
      rcases List.mem_pair.1 hb with rfl | rfl
      · exact absurd rfl hother
      · simp
  · refine absurd (.branches ht (fun cell v htest hv => hread ⟨cell, v, htest, hv⟩) hb) homit

theorem exists_taken (hd : d.Below e) (h : ¬ PassedOver s after e d)
    (hknown : ∀ x ∈ taken s after e, after.memo.lookup x.id ≠ none) :
    ∃ x ∈ taken s after e, d.Within x := by
  obtain ⟨b, hb, hdb⟩ := hd
  have homit : ¬ Omits s after e b := fun hs => h (.skipped hs hdb)
  suffices hnotObject : (∀ n members, e ≠ .object n members) → b ∈ taken s after e by
    cases e with
    | object n members => exact exists_taken_of_member hb hdb h
    | _ => exact ⟨b, hnotObject (by simp), hdb⟩
  intro hobject
  cases e with
  | null | bool | number | string | ident | invalid => cases hb
  | array n elements => exact hb
  | spread =>
    rw [List.mem_singleton.1 hb] at homit
    exact absurd .spread homit
  | call => exact absurd (.call hb) homit
  | sequence => exact absurd (.sequence hb) homit
  | property => exact absurd (.property hb) homit
  | object n members => exact absurd rfl (hobject n members)
  | member n object property computed optional =>
    obtain ⟨k, hk⟩ := Option.ne_none_iff_exists'.1 (hknown property List.mem_cons_self)
    rcases List.mem_pair.1 hb with rfl | rfl
    · cases hkey : s.keyOf computed property k with
      | none => exact absurd (.object hk hkey) homit
      | some key =>
        rw [taken, Memory.answer?_eq hk, hkey]
        simp
    · exact List.mem_cons_self
  | assign n op target value =>
    rcases List.mem_pair.1 hb with rfl | rfl
    · exact absurd .target homit
    · have hassigned : (Expr.assign n op target b).assigned? ≠ none := fun h => homit (.value h)
      rw [taken_assign, if_pos (Option.isSome_iff_ne_none.2 hassigned)]
      exact List.mem_cons_self
  | binary n op left right =>
    cases hop : op.function? with
    | none => exact absurd (.binary hop hb) homit
    | some f =>
      have hleft := hknown left (by simp [taken, hop])
      obtain ⟨a, ha⟩ := Option.ne_none_iff_exists'.1 hleft
      rw [taken, hop, Memory.answer?_eq ha]
      rcases List.mem_pair.1 hb with rfl | rfl
      · simp
      · cases a with
        | none => exact absurd (.right ha) homit
        | some a => simp
  | logical n op left right =>
    obtain ⟨a, ha⟩ := Option.ne_none_iff_exists'.1 (hknown left List.mem_cons_self)
    rw [taken, Memory.answer?_eq ha]
    rcases List.mem_pair.1 hb with rfl | rfl
    · exact List.mem_cons_self
    · cases a with
      | none => exact absurd (.second ha) homit
      | some a => simp
  | unary n op argument =>
    cases hop : op.function? with
    | none =>
      rw [List.mem_singleton.1 hb] at homit
      exact absurd (.unary hop) homit
    | some f =>
      rw [taken, hop]
      exact hb
  | conditional n test consequent alternate =>
    obtain ⟨t, ht⟩ := Option.ne_none_iff_exists'.1 (hknown test List.mem_cons_self)
    rcases List.mem_cons.1 hb with rfl | hbranch
    · rw [taken]
      exact List.mem_cons_self
    · exact mem_taken_of_branch ht hbranch homit

/-- An evaluation without a fault that finds nothing remembered comes to all nodes that it does not
pass over. -/
theorem mem_visited_of_not_passedOver (hd : d.Within e) (h : ¬ PassedOver s after e d)
    (hnew : ∀ c : Expr, c.Within e → before.memo.lookup c.id = none)
    (hknown : ∀ c ∈ visited s before after e, after.memo.lookup c.id ≠ none) :
    d ∈ visited s before after e := by
  induction e using Expr.below_induction with
  | h e ih =>
    have hself := hnew e .refl
    rw [mem_visited_iff]
    refine ⟨hself, ?_⟩
    rcases Expr.within_iff.1 hd with rfl | hbelow
    · exact .inl rfl
    cases hbaseline : s.baseline e with
    | some reading =>
      obtain ⟨b, hb, hdb⟩ := hbelow
      exact absurd (.skipped (.known (by rw [hbaseline]; rfl) hb) hdb) h
    | none =>
      have hvisited : ∀ x ∈ taken s after e, ∀ c ∈ visited s before after x,
          c ∈ visited s before after e :=
        fun x hx c hc => mem_visited_iff.2 ⟨hself, .inr ⟨hbaseline, x, hx, hc⟩⟩
      have hbelow' : ∀ x ∈ taken s after e, x.Below e := fun _ => below_of_mem_taken
      obtain ⟨x, hx, hdx⟩ := exists_taken hbelow h fun x hx =>
        hknown x (hvisited x hx x (mem_visited_iff.2 ⟨hnew x (hbelow' x hx).within, .inl rfl⟩))
      refine .inr ⟨rfl, x, hx, ih x (hbelow' x hx) hdx (fun hpassed => ?_) (fun c hc => ?_) ?_⟩
      · exact h (.operand ((taken_sublist s after e).subset hx) hpassed)
      · exact hnew c (hc.trans (hbelow' x hx).within)
      · exact fun c hc => hknown c (hvisited x hx c hc)

end Evaluation

open Evaluation

/-- **Skipped sub-trees leave no trace.** The baseline is asked about some nodes within the evaluated
one, one after another in the order of the walk and about none twice, and all calls, new answers and
assignments are due to these nodes. None of them is passed over; if nothing was remembered before and
there is no fault, they are all nodes that are not passed over. -/
theorem Program.nodes_of_evaluation {p : Program} (hp : p.Distinct) {e : Expr} (he : e ∈ p.nodes)
    (v : Evaluator) :
    let result := (v.evaluate e).1
    let after := (v.evaluate e).2.memory
    ∃ nodes, Leaves nodes nodes v.memory after ∧ nodes.Sublist e.walk ∧ nodes.Nodup ∧
      (∀ d ∈ nodes, ¬ PassedOver v.setting after e d) ∧
      ((∀ d : Expr, d.Within e → v.memory.memo.lookup d.id = none) → (∃ a, result = .ok a) →
        ∀ d : Expr, d.Within e → ¬ PassedOver v.setting after e d → d ∈ nodes) := by
  intro result after
  have hids := hp.nodup_ids he
  have hfollows : Follows v.memory (answer v.setting e) (visited v.setting v.memory after e) :=
    follows_answer hp e he v.memory (fun _ _ => rfl) (.refl _)
  obtain ⟨nodes, hfront, hleaves, hall⟩ := hfollows
  have hwalk : nodes.Sublist e.walk :=
    hfront.sublist.trans (visited_sublist_walk v.setting v.memory after e)
  refine ⟨nodes, hleaves, hwalk, (Expr.nodup_walk hids).sublist hwalk,
    fun d hd => not_passedOver hids (hfront.subset hd), fun hnew ⟨a, ha⟩ d hd hpassed => ?_⟩
  obtain ⟨rfl, hknown⟩ := hall a after (Prod.ext ha rfl)
  exact mem_visited_of_not_passedOver hd hpassed hnew hknown

/-- In `true ? x = null : y = null` the assignment to `y` is skipped. -/
theorem Program.nodes_of_conditional :
    let test : Expr := .bool ⟨0, .nowhere⟩ true
    let other : Expr := .assign ⟨6, .nowhere⟩ .simple (.ident ⟨4, .nowhere⟩ "y") (.null ⟨5, .nowhere⟩)
    let e : Expr := .conditional ⟨7, .nowhere⟩ test
      (.assign ⟨3, .nowhere⟩ .simple (.ident ⟨1, .nowhere⟩ "x") (.null ⟨2, .nowhere⟩)) other
    let v := Evaluator.new ⟨⟨[], []⟩, .nothing, none, 0⟩
    (ofExpr e).Distinct ∧ e ∈ (ofExpr e).nodes ∧
      (∀ d : Expr, d.Within e → v.memory.memo.lookup d.id = none) ∧
      (∃ a, (v.evaluate e).1 = .ok a) ∧
      ∃ nodes, Leaves nodes nodes v.memory (v.evaluate e).2.memory ∧ e ∈ nodes ∧ other ∉ nodes := by
  intro test other e v
  have hp : (ofExpr e).Distinct := by decide
  have he : e ∈ (ofExpr e).nodes := mem_nodes_ofExpr.2 .refl
  have hnew : ∀ d : Expr, d.Within e → v.memory.memo.lookup d.id = none := fun _ _ => rfl
  have hok : ∃ a, (v.evaluate e).1 = .ok a := ⟨_, rfl⟩
  obtain ⟨nodes, hleaves, -, -, hnot, hall⟩ := nodes_of_evaluation hp he v
  refine ⟨hp, he, hnew, hok, nodes, hleaves, ?_, fun hother => ?_⟩
  · exact hall hnew hok e .refl fun h => (below_of_passedOver h).ne rfl
  · have htest : (v.evaluate e).2.memory.memo.lookup test.id =
        some (some ⟨.node 0 0, .ok (.bool true)⟩) := rfl
    have homits : Omits v.setting (v.evaluate e).2.memory e other := .otherBranch htest rfl
    exact hnot other hother (.skipped homits .refl)

/-- The property in `{ a: true }`, when it is evaluated by itself, is asked about, and its key and its
value are not. -/
theorem Program.trace_of_property :
    let e : Expr := .property ⟨2, .nowhere⟩ (.ident ⟨0, .nowhere⟩ "a") (.bool ⟨1, .nowhere⟩ true)
      false false
    let p := ofExpr (.object ⟨3, .nowhere⟩ [e])
    p.Distinct ∧ e ∈ p.nodes ∧
      ((Evaluator.new ⟨.ofProgram p, .nothing, none, 0⟩).evaluate e).2.memory.trace =
        [.asked e.nodeName] :=
  ⟨by decide, mem_nodes_ofExpr.2 (.child List.mem_cons_self), rfl⟩

end ScriptFold
