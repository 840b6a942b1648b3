import ScriptFold.Proofs.Evaluation.Operands
import ScriptFold.Proofs.Expr.Within

/-!
What known results rest on.

A rule gives a known result only where its operands are known. Names of parts alone may be unknown:
their text is the key. So what two evaluations have in common where their operands are known, they
have in common where the whole is known. `Transfers` says what has to be shown of one step, and
`Transfers.answer` is the induction over the tree.
-/

namespace ScriptFold.Evaluation

variable {s : Setting} {context : Option Context} {whole : Expr}

/-- The key of a property or of an access, where `ev` evaluates the node that it is written as. -/
def keyBy (ev : Expr → Evaluation Answer) (s : Setting) (computed : Bool) (e : Expr) :
    Evaluation Answer := do
  return s.keyOf computed e (← ev e)

/-- The relation `Q` speaks of the known results of two computations, and all ways in which a rule
comes to a known result keep it. The second computations have a context of their own. -/
structure Transfers (s : Setting) (context : Option Context) (whole : Expr)
    (Q : ∀ ⦃α : Type⦄, Evaluation (Option α) → Evaluation (Option α) → Prop) : Prop where
  pure {α : Type} (a : Option α) : Q (pure a) (pure a)
  ident (name : String) : Q (local? name) (local? name)
  call (e callee : Expr) : Q (call s e callee) (call { s with context := context } e callee)
  /-- The result is unknown whatever the operand gives. -/
  unknown {α β : Type} {x y : Evaluation (Option α)} (h : Q x y) :
    Q (x >>= fun _ => Pure.pure (none : Option β)) (y >>= fun _ => Pure.pure none)
  /-- What follows an operand is done only if the operand is known. -/
  known {α β : Type} {x y : Evaluation (Option α)} {f g : Option α → Evaluation (Option β)}
    (h : Q x y) (hf : f none = Pure.pure none) (hg : g none = Pure.pure none)
    (hfg : ∀ a, Q (f (some a)) (g (some a))) : Q (x >>= f) (y >>= g)
  /-- Both operands are evaluated, and both have to be known. -/
  both {α β γ : Type} (f : α → β → γ) {x y : Evaluation (Option α)} {x' y' : Evaluation (Option β)}
    (h : Q x y) (h' : Q x' y') :
    Q (do let a ← x
          let b ← x'
          return do return f (← a) (← b))
      (do let a ← y
          let b ← y'
          return do return f (← a) (← b))
  read {α : Type} {c : Cell} {f g : Value → Evaluation (Option α)} (h : ∀ v, Q (f v) (g v)) :
    Q (read c >>= f) (read c >>= g)
  assign {x y : Evaluation Answer} (name : String) (h : Q x y) :
    Q (do let a ← x
          assign name a
          return a)
      (do let a ← y
          assign name a
          return a)
  key (computed : Bool) {k : Expr}
    (hname : computed = false → k.name?.isSome → k.NamesPartIn whole)
    (h : Q (answer s k) (answer { s with context := context } k)) :
    Q (keyBy (answer s) s computed k) (keyBy (answer { s with context := context }) s computed k)
  once {x y : Evaluation Answer} (e : Expr) (h : Q x y) :
    Q (once s e x) (once { s with context := context } e y)

/-- A member of an object is a key, a value and the members after it. -/
theorem membersBy_property (ev : Expr → Evaluation Answer) {n : Node} {key value : Expr}
    {computed shorthand : Bool} (rest : List Expr) :
    membersBy ev s (.property n key value computed shorthand :: rest) = (do
      let k ← keyBy ev s computed key
      let more ← (do
        let v ← ev value
        let entries ← membersBy ev s rest
        return do return ((← v), (← entries)))
      return do return (fun k more => (k, more.1) :: more.2) (← k) (← more)) := by
  simp only [membersBy, keyBy, bind_assoc, pure_bind]

theorem ruleBy_member (ev : Expr → Evaluation Answer) {n : Node} {object property : Expr}
    {computed optional : Bool} :
    let e : Expr := .member n object property computed optional
    ruleBy ev s e = (do
      let some key ← keyBy ev s computed property | return none
      let some o ← ev object | return none
      return some (s.cell e (.member optional o.reading key.reading))) := by
  intro e
  rw [keyBy, bind_assoc]
  refine bind_congr fun a => ?_
  cases s.keyOf computed property a with
  | none => rfl
  | some key => rfl

section

variable {Q : ∀ ⦃α : Type⦄, Evaluation (Option α) → Evaluation (Option α) → Prop}
  {ev ev' : Expr → Evaluation Answer}

theorem Transfers.elements (hQ : Transfers s context whole Q) {elements : List (Option Expr)}
    (h : ∀ d, some d ∈ elements → Q (ev d) (ev' d)) :
    Q (elementsBy ev elements) (elementsBy ev' elements) := by
  induction elements with
  | nil => exact hQ.pure _
  | cons element rest ih =>
    have hrest := ih fun d hd => h d (List.mem_cons_of_mem element hd)
    cases element with
    | none => exact hQ.unknown hrest
    | some element => exact hQ.both List.cons (h element List.mem_cons_self) hrest

theorem Transfers.members (hQ : Transfers s context whole Q) {members : List Expr}
    (hkey : ∀ n key value computed shorthand, .property n key value computed shorthand ∈ members →
      Q (keyBy ev s computed key) (keyBy ev' s computed key))
    (hvalue : ∀ n key value computed shorthand, .property n key value computed shorthand ∈ members →
      Q (ev value) (ev' value)) :
    Q (membersBy ev s members) (membersBy ev' { s with context := context } members) := by
  induction members with
  | nil => exact hQ.pure _
  | cons member rest ih =>
    cases member with
    | property n key value computed shorthand =>
      rw [membersBy_property, membersBy_property]
      refine hQ.both _ (hkey n key value computed shorthand List.mem_cons_self) ?_
      refine hQ.both Prod.mk (hvalue n key value computed shorthand List.mem_cons_self) ?_
      exact ih (fun n key value computed shorthand hm => hkey n key value computed shorthand
        (List.mem_cons_of_mem _ hm)) fun n key value computed shorthand hm =>
          hvalue n key value computed shorthand (List.mem_cons_of_mem _ hm)
    | _ => exact hQ.pure none

/-- **What is kept by every step holds of known results.** -/
theorem Transfers.answer (hQ : Transfers s context whole Q) (e : Expr) (he : e.Within whole) :
    Q (answer s e) (answer { s with context := context } e) := by
  induction e using Expr.below_induction with
  | h e ih =>
    have hbelow (d : Expr) (hd : d.Below e) := ih d hd (hd.within.trans he)
    have hchild (d : Expr) (hd : d ∈ e.children) := hbelow d (.of_mem_children hd)
    rw [answer_eq, answer_eq]
    refine hQ.once e ?_
    cases e with
    | null | bool | number | string | property | spread | sequence | invalid => exact hQ.pure _
    | ident n name => exact hQ.ident name
    | array n elements =>
      refine hQ.known (hQ.elements fun d hd => ?_) rfl rfl fun items => hQ.pure _
      exact hchild d (by simpa [Expr.children] using hd)
    | object n members =>
      refine hQ.known (hQ.members ?_ ?_) rfl rfl fun entries => hQ.pure _
      · intro n key value computed shorthand hm
        refine hQ.key computed (fun hc hname => ?_)
          (hbelow key ⟨_, hm, .child (by simp [Expr.children])⟩)
        exact ⟨hname, _, (Expr.Within.child hm).trans he, by rw [hc]; rfl⟩
      · intro n key value computed shorthand hm
        exact hbelow value ⟨_, hm, .child (by simp [Expr.children])⟩
    | member n object property computed optional =>
      have hkey := hQ.key computed (fun hc hname => ⟨hname, _, he, by rw [hc]; rfl⟩)
        (hchild property (by simp [Expr.children]))
      rw [ruleBy_member, ruleBy_member]
      refine hQ.known hkey rfl rfl fun key => ?_
      exact hQ.known (hchild object (by simp [Expr.children])) rfl rfl fun o => hQ.pure _
    | call n callee xs optional => exact hQ.call _ callee
    | assign n op target value =>
      have hvalue := hchild value (by simp [Expr.children])
      -- Only a simple assignment to a name has a rule.
      cases op with
      | simple =>
        cases target with
        | ident n' name => exact hQ.assign name hvalue
        | _ => exact hQ.pure none
      | _ => exact hQ.pure none
    | binary n op left right =>
      have hleft := hchild left (by simp [Expr.children])
      have hright := hchild right (by simp [Expr.children])
      simp only [ruleBy]
      cases op.function? with
      | none => exact hQ.pure none
      | some f => exact hQ.known hleft rfl rfl fun a => hQ.known hright rfl rfl fun b => hQ.pure _
    | logical n op left right =>
      have hleft := hchild left (by simp [Expr.children])
      have hright := hchild right (by simp [Expr.children])
      exact hQ.known hleft rfl rfl fun a => hQ.known hright rfl rfl fun b => hQ.pure _
    | unary n op argument =>
      have hargument := hchild argument (by simp [Expr.children])
      simp only [ruleBy]
      cases op.function? with
      | none => exact hQ.pure none
      | some f => exact hQ.known hargument rfl rfl fun a => hQ.pure _
    | conditional n test consequent alternate =>
      refine hQ.known (hchild test (by simp [Expr.children])) rfl rfl fun t => hQ.read fun v => ?_
      split
      · exact hchild consequent (by simp [Expr.children])
      · exact hchild alternate (by simp [Expr.children])

end

end ScriptFold.Evaluation
