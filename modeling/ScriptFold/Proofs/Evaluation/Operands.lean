import ScriptFold.Proofs.Evaluation.Run
import ScriptFold.Proofs.Expr.Nodes

/-!
The operands of a node.

The rule for a node evaluates some of the nodes below it, one after another. `ruleBy` is this rule
for any way to evaluate these operands, and `Operand` says which of them the evaluation of a node
comes to, and with which memory. A rule that comes to an operand goes on with what the operand
gives (`run_operand`), and a rule does nothing besides: what holds of the evaluation of each
operand, holds of the rule (`ruleBy_holds`). All that follows about evaluations is proved by these
two theorems, so that the rules are taken apart here only.
-/

namespace ScriptFold.Evaluation

variable {α β : Type} {s : Setting} {m m₁ m₂ : Memory} {d e : Expr}

/-! ## Rules -/

section Rules

variable (ev : Expr → Evaluation Answer) (s : Setting)

/-- The cells of all elements of an array, where `ev` evaluates an element. -/
def elementsBy : List (Option Expr) → Evaluation (Option (List Cell))
  | [] => return some []
  | none :: rest => do
    let _ ← elementsBy rest
    return none
  | some element :: rest => do
    let item ← ev element
    let items ← elementsBy rest
    return do return (← item) :: (← items)

/-- The cells of the keys and values of an object, where `ev` evaluates a key or value. -/
def membersBy : List Expr → Evaluation (Option (List (Cell × Cell)))
  | [] => return some []
  | .property _ key value computed _ :: rest => do
    let k ← ev key
    let v ← ev value
    let entries ← membersBy rest
    return do return (← s.keyOf computed key k, ← v) :: (← entries)
  | _ :: _ => return none

/-- The rule for a node, where `ev` evaluates an operand. -/
def ruleBy (e : Expr) : Evaluation Answer :=
  match e with
  | .null _ => return some (s.cell e (.ok .null))
  | .bool _ b => return some (s.cell e (.ok (.bool b)))
  | .number _ x => return some (s.cell e (.ok (.number x)))
  | .string _ t => return some (s.cell e (.ok (.string t)))
  | .ident _ name => local? name
  | .array _ elements => do
    let some items ← elementsBy ev elements | return none
    return some (s.cell e (.array (s.identity e) (items.map (·.reading))))
  | .object _ members => do
    let some entries ← membersBy ev s members | return none
    return some (s.cell e (.object (s.identity e)
      (entries.map fun (key, value) => (key.reading, value.reading))))
  | .member _ object property computed optional => do
    let some key := s.keyOf computed property (← ev property) | return none
    let some o ← ev object | return none
    return some (s.cell e (.member optional o.reading key.reading))
  | .call _ callee _ _ => call s e callee
  | .assign _ .simple (.ident _ name) value => do
    let a ← ev value
    assign name a
    return a
  | .binary _ op left right =>
    match op.function? with
    | none => return none
    | some f => do
      let some a ← ev left | return none
      let some b ← ev right | return none
      return some (s.cell e (.binary f a.reading b.reading))
  | .logical _ op left right => do
    let some a ← ev left | return none
    let some b ← ev right | return none
    return some (s.cell e (.binary op.function a.reading b.reading))
  | .unary _ op argument =>
    match op.function? with
    | none => return none
    | some f => do
      let some a ← ev argument | return none
      return some (s.cell e (.unary f a.reading))
  | .conditional _ test consequent alternate => do
    let some t ← ev test | return none
    let v ← read t
    if v.isTruthy then ev consequent else ev alternate
  | .assign _ _ _ _ | .property _ _ _ _ _ | .spread _ _ | .sequence _ _ | .invalid _ =>
    return none

end Rules

section

variable {ev ev' : Expr → Evaluation Answer}

theorem elementsBy_congr {elements : List (Option Expr)}
    (h : ∀ d, some d ∈ elements → ev d = ev' d) :
    elementsBy ev elements = elementsBy ev' elements := by
  induction elements with
  | nil => rfl
  | cons element rest ih =>
    have hrest := ih fun d hd => h d (List.mem_cons_of_mem element hd)
    cases element with
    | none => simp only [elementsBy, hrest]
    | some element => simp only [elementsBy, hrest, h element List.mem_cons_self]

theorem membersBy_congr {members : List Expr}
    (h : ∀ q ∈ members, ∀ d ∈ q.children, ev d = ev' d) :
    membersBy ev s members = membersBy ev' s members := by
  induction members with
  | nil => rfl
  | cons member rest ih =>
    have hrest := ih fun q hq => h q (List.mem_cons_of_mem member hq)
    have hmember := h member List.mem_cons_self
    cases member with
    | property n key value computed shorthand =>
      simp only [membersBy, hrest, hmember key (by simp [Expr.children]),
        hmember value (by simp [Expr.children])]
    | _ => rfl

/-- A rule depends on how the nodes below are evaluated only. -/
theorem ruleBy_congr (h : ∀ d : Expr, d.Below e → ev d = ev' d) :
    ruleBy ev s e = ruleBy ev' s e := by
  have hchild : ∀ d ∈ e.children, ev d = ev' d := fun d hd => h d (.of_mem_children hd)
  cases e with
  | array n elements =>
    have helements : elementsBy ev elements = elementsBy ev' elements :=
      elementsBy_congr fun d hd => hchild d (by simpa [Expr.children] using hd)
    simp only [ruleBy, helements]
  | object n members =>
    have hmembers : membersBy ev s members = membersBy ev' s members :=
      membersBy_congr fun q hq d hd => h d ⟨q, hq, .child hd⟩
    simp only [ruleBy, hmembers]
  | assign n op target value =>
    have hvalue := hchild value (by simp [Expr.children])
    cases op <;> cases target <;> simp only [ruleBy, hvalue]
  | member n object property _ _ =>
    simp only [ruleBy, hchild object (by simp [Expr.children]),
      hchild property (by simp [Expr.children])]
  | binary n _ left right | logical n _ left right =>
    simp only [ruleBy, hchild left (by simp [Expr.children]),
      hchild right (by simp [Expr.children])]
  | unary n _ argument => simp only [ruleBy, hchild argument (by simp [Expr.children])]
  | conditional n test consequent alternate =>
    simp only [ruleBy, hchild test (by simp [Expr.children]),
      hchild consequent (by simp [Expr.children]), hchild alternate (by simp [Expr.children])]
  | _ => rfl

end

theorem gives_ruleBy_member {ev : Expr → Evaluation Answer} {n : Node} {object property : Expr}
    {computed optional : Bool} {a : Answer} :
    let e : Expr := .member n object property computed optional
    Gives m (ruleBy ev s e) a m₁ ↔ ∃ k m₂, Gives m (ev property) k m₂ ∧
      (s.keyOf computed property k = none ∧ a = none ∧ m₂ = m₁ ∨
        ∃ key o, s.keyOf computed property k = some key ∧ Gives m₂ (ev object) o m₁ ∧
          a = o.map fun o => s.cell e (.member optional o.reading key.reading)) := by
  intro e
  refine gives_bind.trans (exists_congr fun k => exists_congr fun m₂ => and_congr_right fun _ => ?_)
  cases s.keyOf computed property k with
  | none => simp [eq_comm]
  | some key =>
    constructor
    · intro h
      obtain ⟨o, m₃, ho, h⟩ := gives_bind.1 h
      refine .inr ⟨key, o, rfl, ?_⟩
      cases o with
      | none =>
        obtain ⟨rfl, rfl⟩ := gives_pure.1 h
        exact ⟨ho, rfl⟩
      | some o =>
        obtain ⟨rfl, rfl⟩ := gives_pure.1 h
        exact ⟨ho, rfl⟩
    · rintro (⟨⟨⟩, -⟩ | ⟨_, o, ⟨⟩, ho, rfl⟩)
      refine gives_bind.2 ⟨o, m₁, ho, ?_⟩
      cases o <;> exact gives_pure.2 ⟨rfl, rfl⟩

theorem answerElements_eq (elements : List (Option Expr)) :
    answerElements s elements = elementsBy (answer s) elements := by
  induction elements with
  | nil => simp only [answerElements, elementsBy]
  | cons element rest ih => cases element <;> simp only [answerElements, elementsBy, ih]

theorem answerMembers_eq (members : List Expr) :
    answerMembers s members = membersBy (answer s) s members := by
  induction members with
  | nil => simp only [answerMembers, membersBy]
  | cons member rest ih => cases member <;> simp only [answerMembers, membersBy, ih]

/-- The evaluation of a node follows its rule, with the evaluation of nodes for its operands. -/
theorem answer_eq (e : Expr) : answer s e = once s e (ruleBy (answer s) s e) := by
  cases e with
  | assign _ op target _ => cases op <;> cases target <;> simp only [answer, ruleBy]
  | array | object | member | binary | logical | unary | conditional =>
    conv_lhs => simp only [answer, answerElements_eq, answerMembers_eq]
    rfl
  | _ => simp only [answer, ruleBy]

/-! ## Operands -/

/-- `ElementOperand s m elements m₁ d`: the elements of an array, evaluated from the memory `m`,
come to the element `d` with the memory `m₁`. -/
inductive ElementOperand (s : Setting) : Memory → List (Option Expr) → Memory → Expr → Prop
  | here {m : Memory} {d : Expr} {rest : List (Option Expr)} :
    ElementOperand s m (some d :: rest) m d
  | hole {m m₁ : Memory} {d : Expr} {rest : List (Option Expr)}
    (h : ElementOperand s m rest m₁ d) : ElementOperand s m (none :: rest) m₁ d
  | later {m m₁ m₂ : Memory} {d element : Expr} {rest : List (Option Expr)} {a : Answer}
    (ha : Gives m (answer s element) a m₁) (h : ElementOperand s m₁ rest m₂ d) :
    ElementOperand s m (some element :: rest) m₂ d

/-- The same for the members of an object. -/
inductive MemberOperand (s : Setting) : Memory → List Expr → Memory → Expr → Prop
  | key {m : Memory} {n : Node} {key value : Expr} {computed shorthand : Bool} {rest : List Expr} :
    MemberOperand s m (.property n key value computed shorthand :: rest) m key
  | value {m m₁ : Memory} {n : Node} {key value : Expr} {computed shorthand : Bool}
    {rest : List Expr} {k : Answer} (hk : Gives m (answer s key) k m₁) :
    MemberOperand s m (.property n key value computed shorthand :: rest) m₁ value
  | later {m m₁ m₂ m₃ : Memory} {d : Expr} {n : Node} {key value : Expr}
    {computed shorthand : Bool} {rest : List Expr} {k v : Answer}
    (hk : Gives m (answer s key) k m₁) (hv : Gives m₁ (answer s value) v m₂)
    (h : MemberOperand s m₂ rest m₃ d) :
    MemberOperand s m (.property n key value computed shorthand :: rest) m₃ d

/-- `Operand s m e m₁ d`: the rule for `e`, followed from the memory `m`, comes to the node `d` with
the memory `m₁`. -/
inductive Operand (s : Setting) (m : Memory) : Expr → Memory → Expr → Prop
  | element {m₁ : Memory} {d : Expr} {n : Node} {elements : List (Option Expr)}
    (h : ElementOperand s m elements m₁ d) : Operand s m (.array n elements) m₁ d
  | member {m₁ : Memory} {d : Expr} {n : Node} {members : List Expr}
    (h : MemberOperand s m members m₁ d) : Operand s m (.object n members) m₁ d
  | property {n : Node} {object property : Expr} {computed optional : Bool} :
    Operand s m (.member n object property computed optional) m property
  | object {m₁ : Memory} {n : Node} {object property : Expr} {computed optional : Bool} {k : Answer}
    (hk : Gives m (answer s property) k m₁) (hkey : (s.keyOf computed property k).isSome) :
    Operand s m (.member n object property computed optional) m₁ object
  | assigned {n n' : Node} {name : String} {value : Expr} :
    Operand s m (.assign n .simple (.ident n' name) value) m value
  | left {n : Node} {op : BinaryOp} {left right : Expr} (hop : op.function?.isSome) :
    Operand s m (.binary n op left right) m left
  | right {m₁ : Memory} {n : Node} {op : BinaryOp} {left right : Expr} {c : Cell}
    (hop : op.function?.isSome) (hleft : Gives m (answer s left) (some c) m₁) :
    Operand s m (.binary n op left right) m₁ right
  | first {n : Node} {op : LogicalOp} {left right : Expr} :
    Operand s m (.logical n op left right) m left
  | second {m₁ : Memory} {n : Node} {op : LogicalOp} {left right : Expr} {c : Cell}
    (hleft : Gives m (answer s left) (some c) m₁) :
    Operand s m (.logical n op left right) m₁ right
  | argument {n : Node} {op : UnaryOp} {argument : Expr} (hop : op.function?.isSome) :
    Operand s m (.unary n op argument) m argument
  | test {n : Node} {test consequent alternate : Expr} :
    Operand s m (.conditional n test consequent alternate) m test
  | consequent {m₁ : Memory} {n : Node} {test consequent alternate : Expr} {t : Cell} {v : Value}
    (htest : Gives m (answer s test) (some t) m₁) (hv : t.reading = .ok v)
    (htruthy : v.isTruthy = true) :
    Operand s m (.conditional n test consequent alternate) m₁ consequent
  | alternate {m₁ : Memory} {n : Node} {test consequent alternate : Expr} {t : Cell} {v : Value}
    (htest : Gives m (answer s test) (some t) m₁) (hv : t.reading = .ok v)
    (htruthy : v.isTruthy = false) :
    Operand s m (.conditional n test consequent alternate) m₁ alternate

theorem ElementOperand.mem {elements : List (Option Expr)}
    (h : ElementOperand s m elements m₁ d) : some d ∈ elements := by
  induction h with
  | here => exact List.mem_cons_self
  | hole _ ih => exact List.mem_cons_of_mem _ ih
  | later _ _ ih => exact List.mem_cons_of_mem _ ih

theorem MemberOperand.within {members : List Expr} (h : MemberOperand s m members m₁ d) :
    ∃ p ∈ members, d ∈ p.children := by
  induction h with
  | key | value => exact ⟨_, List.mem_cons_self, by simp [Expr.children]⟩
  | later _ _ _ ih =>
    obtain ⟨p, hp, hd⟩ := ih
    exact ⟨p, List.mem_cons_of_mem _ hp, hd⟩

theorem Operand.below (h : Operand s m e m₁ d) : d.Below e := by
  cases h with
  | element h => exact .of_mem_children (by simpa [Expr.children] using h.mem)
  | member h =>
    obtain ⟨p, hp, hd⟩ := h.within
    exact ⟨p, hp, .child hd⟩
  | _ => exact .of_mem_children (by simp [Expr.children])

theorem Operand.mem_nodes {p : Program} (h : Operand s m e m₁ d) (he : e ∈ p.nodes) :
    d ∈ p.nodes :=
  p.mem_nodes_of_within he h.below.within

/-! ## Runs that go on -/

theorem run_bind_of_gives {x : Evaluation α} {a : α} {k : α → Evaluation β} (h : Gives m x a m₁) :
    (x >>= k).run m = (k a).run m₁ := by
  rw [run_bind, h]

/-- `Continues x m y m₁`: the run of `x` from `m` goes on as a run of `y` from `m₁`. -/
def Continues (x : Evaluation α) (m : Memory) (y : Evaluation β) (m₁ : Memory) : Prop :=
  ∃ g, x.run m = (y >>= g).run m₁

namespace Continues

variable {x : Evaluation α} {y : Evaluation β} {γ : Type}

theorem refl : Continues x m x m := ⟨pure, by rw [bind_pure]⟩

theorem bind {k : α → Evaluation γ} (h : Continues x m y m₁) : Continues (x >>= k) m y m₁ := by
  obtain ⟨g, h⟩ := h
  refine ⟨fun b => g b >>= k, ?_⟩
  rw [run_bind, h, ← run_bind, bind_assoc]

theorem after {a : α} {k : α → Evaluation γ} (ha : Gives m x a m₁)
    (h : Continues (k a) m₁ y m₂) : Continues (x >>= k) m y m₂ := by
  obtain ⟨g, h⟩ := h
  exact ⟨g, by rw [run_bind_of_gives ha, h]⟩

theorem error {f : Fault} (h : Continues x m y m₁) (hy : y.run m₁ = (.error f, m₂)) :
    x.run m = (.error f, m₂) := by
  obtain ⟨g, h⟩ := h
  rw [h, run_bind, hy]

end Continues

theorem ElementOperand.continues {elements : List (Option Expr)}
    (h : ElementOperand s m elements m₁ d) :
    Continues (elementsBy (answer s) elements) m (answer s d) m₁ := by
  induction h with
  | here => exact Continues.refl.bind
  | hole _ ih => exact ih.bind
  | later ha _ ih => exact .after ha ih.bind

theorem MemberOperand.continues {members : List Expr} (h : MemberOperand s m members m₁ d) :
    Continues (membersBy (answer s) s members) m (answer s d) m₁ := by
  induction h with
  | key => exact Continues.refl.bind
  | value hk => exact .after hk Continues.refl.bind
  | later hk hv _ ih => exact .after hk (.after hv ih.bind)

/-- A rule that comes to an operand goes on with the evaluation of the operand. -/
theorem Operand.continues (h : Operand s m e m₁ d) :
    Continues (ruleBy (answer s) s e) m (answer s d) m₁ := by
  cases h with
  | element h => exact h.continues.bind
  | member h => exact h.continues.bind
  | property => exact Continues.refl.bind
  | object hk hkey =>
    obtain ⟨key, hkey⟩ := Option.isSome_iff_exists.1 hkey
    refine .after hk ?_
    rw [hkey]
    exact Continues.refl.bind
  | assigned => exact Continues.refl.bind
  | left hop =>
    obtain ⟨f, hf⟩ := Option.isSome_iff_exists.1 hop
    simp only [ruleBy, hf]
    exact Continues.refl.bind
  | right hop hleft =>
    obtain ⟨f, hf⟩ := Option.isSome_iff_exists.1 hop
    simp only [ruleBy, hf]
    exact .after hleft Continues.refl.bind
  | first => exact Continues.refl.bind
  | second hleft => exact .after hleft Continues.refl.bind
  | argument hop =>
    obtain ⟨f, hf⟩ := Option.isSome_iff_exists.1 hop
    simp only [ruleBy, hf]
    exact Continues.refl.bind
  | test => exact Continues.refl.bind
  | consequent htest hv htruthy =>
    refine .after htest (.after (gives_read.2 ⟨hv, rfl⟩) ?_)
    rw [if_pos htruthy]
    exact .refl
  | alternate htest hv htruthy =>
    refine .after htest (.after (gives_read.2 ⟨hv, rfl⟩) ?_)
    rw [if_neg (by simp [htruthy])]
    exact .refl

theorem run_assign (name : String) (a : Answer) (m : Memory) :
    (do assign name a; return a : Evaluation Answer).run m = (.ok a, m.assigned name a) := by
  cases a <;> rfl

/-- What a call gives does not depend on the memory, and all that it does is to note at most one
macro. -/
theorem run_call (s : Setting) (e callee : Expr) :
    ∃ (result : Except Fault Answer) (called : Option BuildMacro), ∀ m : Memory,
      (call s e callee).run m = (result,
        { m with trace := called.toList.map (.called · e.nodeName) ++ m.trace }) := by
  unfold call
  split
  · exact ⟨.ok none, none, fun m => rfl⟩
  rename_i context _
  split
  · exact ⟨_, none, fun m => rfl⟩
  split
  · exact ⟨.ok none, none, fun m => rfl⟩
  rename_i b _
  cases hjson : context.handlers b e context.state with
  | ok json? => exact ⟨_, some b, fun m => rfl⟩
  | error fault => exact ⟨_, some b, fun m => rfl⟩

/-! ## What holds of operands and rules -/

/-- A relation of two computations from a memory which is kept by the ways in which rules are put
together. -/
structure Composes (Q : ∀ ⦃α : Type⦄, Memory → Evaluation α → Evaluation α → Prop) : Prop where
  pure {α : Type} (m : Memory) (a : α) : Q m (pure a) (pure a)
  read (m : Memory) (c : Cell) : Q m (read c) (read c)
  bind {α β : Type} {m : Memory} {x y : Evaluation α} {f g : α → Evaluation β} (h : Q m x y)
    (hfg : ∀ a m₁, Gives m x a m₁ → Q m₁ (f a) (g a)) : Q m (x >>= f) (y >>= g)

section

variable {Q : ∀ ⦃α : Type⦄, Memory → Evaluation α → Evaluation α → Prop}
  {ev : Expr → Evaluation Answer}

theorem Composes.known (hQ : Composes Q) {x y : Evaluation (Option α)}
    {f g : Option α → Evaluation (Option β)} (h : Q m x y) (hf : f none = Pure.pure none)
    (hg : g none = Pure.pure none)
    (hfg : ∀ a m₁, Gives m x (some a) m₁ → Q m₁ (f (some a)) (g (some a))) :
    Q m (x >>= f) (y >>= g) := by
  refine hQ.bind h fun a m₁ ha => ?_
  cases a with
  | none =>
    rw [hf, hg]
    exact hQ.pure m₁ none
  | some a => exact hfg a m₁ ha

theorem composes_of_steps {R : Memory → Memory → Prop} (hrefl : ∀ m, R m m)
    (htrans : ∀ m m₁ m₂, R m m₁ → R m₁ m₂ → R m m₂) :
    Composes fun _ m x _ => R m (x.run m).2 where
  pure m _ := hrefl m
  read m c := by
    unfold Evaluation.read
    cases c.reading <;> exact hrefl m
  bind {_ _ m x _ f _} h hf := by
    rw [run_bind]
    rcases hx : x.run m with ⟨fault | a, m₁⟩
    · rw [hx] at h
      exact h
    · rw [hx] at h
      exact htrans m m₁ _ h (hf a m₁ hx)

/-- From memories that `R` relates, two computations give the same result and leave memories that
`R` relates. -/
def Agree (R : Memory → Memory → Prop) (m : Memory) (x y : Evaluation α) : Prop :=
  ∀ n, R m n → (x.run m).1 = (y.run n).1 ∧ R (x.run m).2 (y.run n).2

theorem composes_agree (R : Memory → Memory → Prop) : Composes fun _ => Agree R where
  pure m a n h := ⟨rfl, h⟩
  read m c n h := by
    unfold Evaluation.read
    cases c.reading <;> exact ⟨rfl, h⟩
  bind {_ _ m x y f g} h hfg n hn := by
    obtain ⟨hresult, hafter⟩ := h n hn
    rw [run_bind, run_bind]
    rcases hx : x.run m with ⟨fault | a, m₁⟩ <;> rcases hy : y.run n with ⟨fault' | b, n₁⟩ <;>
      rw [hx, hy] at hresult hafter <;> cases hresult
    · exact ⟨rfl, hafter⟩
    · exact hfg a m₁ hx n₁ hafter

theorem elementsBy_holds (hQ : Composes Q) {elements : List (Option Expr)}
    (h : ∀ m₁ d, ElementOperand s m elements m₁ d → Q m₁ (answer s d) (ev d)) :
    Q m (elementsBy (answer s) elements) (elementsBy ev elements) := by
  induction elements generalizing m with
  | nil => exact hQ.pure m _
  | cons element rest ih =>
    cases element with
    | none => exact hQ.bind (ih fun m₁ d hd => h m₁ d (.hole hd)) fun _ m₁ _ => hQ.pure m₁ none
    | some element =>
      refine hQ.bind (h m element .here) fun item m₁ hitem => ?_
      exact hQ.bind (ih fun m₂ d hd => h m₂ d (.later hitem hd)) fun _ m₂ _ => hQ.pure m₂ _

theorem membersBy_holds (hQ : Composes Q) {members : List Expr}
    (h : ∀ m₁ d, MemberOperand s m members m₁ d → Q m₁ (answer s d) (ev d)) :
    Q m (membersBy (answer s) s members) (membersBy ev s members) := by
  induction members generalizing m with
  | nil => exact hQ.pure m _
  | cons member rest ih =>
    cases member with
    | property n key value computed shorthand =>
      refine hQ.bind (h m key .key) fun k m₁ hk => ?_
      refine hQ.bind (h m₁ value (.value hk)) fun v m₂ hv => ?_
      exact hQ.bind (ih fun m₃ d hd => h m₃ d (.later hk hv hd)) fun _ m₃ _ => hQ.pure m₃ _
    | _ => exact hQ.pure m none

/-- **A rule does nothing besides its operands.** What holds of the evaluation of every operand that
the rule for a node comes to, holds of the rule, if it holds of reading and writing variables and
of calls. -/
theorem ruleBy_holds (hQ : Composes Q)
    (hoperand : ∀ m₁ d, Operand s m e m₁ d → Q m₁ (answer s d) (ev d))
    (hident : ∀ n name, e = .ident n name → Q m (local? name) (local? name))
    (hcall : ∀ n callee xs optional, e = .call n callee xs optional →
      Q m (call s e callee) (call s e callee))
    (hassign : ∀ n n' name value, e = .assign n .simple (.ident n' name) value →
      Q m (answer s value) (ev value) →
      Q m (answer s value >>= fun a => do assign name a; return a)
        (ev value >>= fun a => do assign name a; return a)) :
    Q m (ruleBy (answer s) s e) (ruleBy ev s e) := by
  cases e with
  | null | bool | number | string | property | spread | sequence | invalid => exact hQ.pure m _
  | ident n name => exact hident n name rfl
  | array n elements =>
    refine hQ.known (elementsBy_holds hQ fun m₁ d hd => hoperand m₁ d (.element hd)) rfl rfl ?_
    exact fun items m₁ _ => hQ.pure m₁ _
  | object n members =>
    refine hQ.known (membersBy_holds hQ fun m₁ d hd => hoperand m₁ d (.member hd)) rfl rfl ?_
    exact fun entries m₁ _ => hQ.pure m₁ _
  | member n object property computed optional =>
    refine hQ.bind (hoperand m property .property) fun k m₁ hk => ?_
    cases hkey : s.keyOf computed property k with
    | none => exact hQ.pure m₁ none
    | some key =>
      have hobject := hoperand m₁ object (.object hk (by rw [hkey]; rfl))
      exact hQ.known hobject rfl rfl fun o m₂ _ => hQ.pure m₂ _
  | call n callee xs optional => exact hcall n callee xs optional rfl
  | assign n op target value =>
    -- Only a simple assignment to a name has a rule.
    cases op with
    | simple =>
      cases target with
      | ident n' name => exact hassign n n' name value rfl (hoperand m value .assigned)
      | _ => exact hQ.pure m none
    | _ => exact hQ.pure m none
  | binary n op left right =>
    cases hop : op.function? with
    | none =>
      simp only [ruleBy, hop]
      exact hQ.pure m none
    | some f =>
      have hsome : op.function?.isSome := by rw [hop]; rfl
      simp only [ruleBy, hop]
      refine hQ.known (hoperand m left (.left hsome)) rfl rfl fun a m₁ ha => ?_
      exact hQ.known (hoperand m₁ right (.right hsome ha)) rfl rfl fun b m₂ _ => hQ.pure m₂ _
  | logical n op left right =>
    refine hQ.known (hoperand m left .first) rfl rfl fun a m₁ ha => ?_
    exact hQ.known (hoperand m₁ right (.second ha)) rfl rfl fun b m₂ _ => hQ.pure m₂ _
  | unary n op argument =>
    cases hop : op.function? with
    | none =>
      simp only [ruleBy, hop]
      exact hQ.pure m none
    | some f =>
      simp only [ruleBy, hop]
      have hargument := hoperand m argument (.argument (by rw [hop]; rfl))
      exact hQ.known hargument rfl rfl fun a m₁ _ => hQ.pure m₁ _
  | conditional n test consequent alternate =>
    refine hQ.known (hoperand m test .test) rfl rfl fun t m₁ ht => ?_
    refine hQ.bind (hQ.read m₁ t) fun v m₂ hv => ?_
    obtain ⟨hreading, rfl⟩ := gives_read.1 hv
    cases htruthy : v.isTruthy with
    | true => exact hoperand m₁ consequent (.consequent ht hreading htruthy)
    | false => exact hoperand m₁ alternate (.alternate ht hreading htruthy)

end

theorem fresh_of_some {rule : Evaluation Answer} {reading : Reading}
    (h : s.baseline e = some reading) : fresh s e rule = pure (some (s.cell e reading)) := by
  unfold fresh
  rw [h]

theorem fresh_of_none {rule : Evaluation Answer} (h : s.baseline e = none) :
    fresh s e rule = rule := by
  unfold fresh
  rw [h]

theorem agree_fresh {R : Memory → Memory → Prop} {ev : Expr → Evaluation Answer}
    (hlocals : ∀ m n, R m n → m.locals = n.locals)
    (hnote : ∀ m n notes, R m n →
      R { m with trace := notes ++ m.trace } { n with trace := notes ++ n.trace })
    (hassign : ∀ name, e.assigned? = some name → ∀ m n a, R m n →
      R (m.assigned name a) (n.assigned name a))
    (hoperand : s.baseline e = none → ∀ m₁ d, Operand s m e m₁ d →
      Agree R m₁ (answer s d) (ev d)) :
    Agree R m (fresh s e (ruleBy (answer s) s e)) (fresh s e (ruleBy ev s e)) := by
  cases hbaseline : s.baseline e with
  | some reading =>
    rw [fresh_of_some hbaseline, fresh_of_some hbaseline]
    exact (composes_agree R).pure m _
  | none =>
    rw [fresh_of_none hbaseline, fresh_of_none hbaseline]
    refine ruleBy_holds (composes_agree R) (hoperand hbaseline) ?_ ?_ ?_
    · intro _ name _ n h
      refine ⟨?_, h⟩
      show Except.ok (m.locals.lookup name) = Except.ok (n.locals.lookup name)
      rw [hlocals m n h]
    · intro _ callee _ _ _ n h
      obtain ⟨result, called, hrun⟩ := run_call s e callee
      rw [hrun, hrun]
      exact ⟨rfl, hnote m n _ h⟩
    · intro _ _ name value heq hvalue
      refine (composes_agree R).bind hvalue fun a m₁ _ n h => ?_
      rw [run_assign, run_assign]
      exact ⟨rfl, hassign name (by rw [heq]; rfl) m₁ n a h⟩

end ScriptFold.Evaluation
