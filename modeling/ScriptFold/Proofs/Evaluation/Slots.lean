import ScriptFold.Proofs.Evaluation.Operands

/-!
Rules that find the nodes below in slots.

The rule for a node can ask the node for what stands in its slots, by their names; it is a fault to
ask for a slot that the node does not have. `slotRule` is the rule in this form. Each rule asks for
slots that the nodes of its kind have, so these faults do not occur: the rules in both forms are the
same, and so are the evaluations.
-/

namespace ScriptFold.Evaluation

def childIn (e : Expr) (slot : Slot) : Evaluation Expr :=
  match e.child slot with
  | .ok d => return d
  | .error error => throw (.slot error)

def listIn (e : Expr) (slot : Slot) : Evaluation (List (Option Expr)) :=
  match e.list slot with
  | .ok ds => return ds
  | .error error => throw (.slot error)

section Rules

variable (ev : Expr → Evaluation Answer) (s : Setting)

/-- The cells of the keys and values of an object, which are found in slots of its members. -/
def slotMembers : List Expr → Evaluation (Option (List (Cell × Cell)))
  | [] => return some []
  | member :: rest =>
    match member with
    | .property _ _ _ computed _ => do
      let key ← childIn member .key
      let k ← ev key
      let value ← childIn member .value
      let v ← ev value
      let entries ← slotMembers rest
      return do return (← s.keyOf computed key k, ← v) :: (← entries)
    | _ => return none

/-- The answer of a function of two operands, which are found in slots of the node. -/
def slotOperands (e : Expr) (f : Value → Value → Value) : Evaluation Answer := do
  let left ← childIn e .left
  let some a ← ev left | return none
  let right ← childIn e .right
  let some b ← ev right | return none
  return some (s.cell e (.binary f a.reading b.reading))

/-- The rule for a node, which finds the nodes below in slots. -/
def slotRule (e : Expr) : Evaluation Answer :=
  match e with
  | .array _ _ => do
    let elements ← listIn e .elements
    let some items ← elementsBy ev elements | return none
    return some (s.cell e (.array (s.identity e) (items.map (·.reading))))
  | .object _ _ => do
    let members ← listIn e .properties
    let some entries ← slotMembers ev s (members.filterMap fun member => member) | return none
    return some (s.cell e (.object (s.identity e)
      (entries.map fun (key, value) => (key.reading, value.reading))))
  | .member _ _ _ computed optional => do
    let property ← childIn e .property
    let some key := s.keyOf computed property (← ev property) | return none
    let object ← childIn e .object
    let some o ← ev object | return none
    return some (s.cell e (.member optional o.reading key.reading))
  | .call _ _ _ _ =>
    match s.context with
    | none => return none
    | some _ => do
      let callee ← childIn e .callee
      call s e callee
  | .assign _ .simple (.ident _ name) _ => do
    let value ← childIn e .right
    let a ← ev value
    assign name a
    return a
  | .binary _ op _ _ =>
    match op.function? with
    | none => return none
    | some f => slotOperands ev s e f
  | .logical _ op _ _ => slotOperands ev s e op.function
  | .unary _ op _ =>
    match op.function? with
    | none => return none
    | some f => do
      let argument ← childIn e .argument
      let some a ← ev argument | return none
      return some (s.cell e (.unary f a.reading))
  | .conditional _ _ _ _ => do
    let test ← childIn e .test
    let some t ← ev test | return none
    let v ← read t
    let branch ← childIn e (if v.isTruthy then .consequent else .alternate)
    ev branch
  | e => ruleBy ev s e

end Rules

variable {s : Setting} {ev : Expr → Evaluation Answer}

theorem slotMembers_eq (members : List Expr) :
    slotMembers ev s members = membersBy ev s members := by
  induction members with
  | nil => rfl
  | cons member rest ih =>
    cases member with
    | property n key value computed shorthand =>
      have hkey : childIn (.property n key value computed shorthand) .key = pure key := rfl
      have hvalue : childIn (.property n key value computed shorthand) .value = pure value := rfl
      simp only [slotMembers, membersBy, hkey, hvalue, pure_bind, ih]
    | _ => rfl

theorem slotRule_eq (ev : Expr → Evaluation Answer) (s : Setting) (e : Expr) :
    slotRule ev s e = ruleBy ev s e := by
  cases e with
  | null | bool | number | string | ident | property | spread | sequence | invalid => rfl
  | array | member | binary | logical | unary => rfl
  | object n members =>
    have hnodes : (members.map some).filterMap (fun member => member) = members :=
      Expr.nodes_list_some members
    have hmembers : slotMembers ev s ((members.map some).filterMap fun member => member) =
        membersBy ev s members := by
      rw [hnodes, slotMembers_eq]
    exact congrArg (fun x : Evaluation (Option (List (Cell × Cell))) => do
      let some entries ← x | return none
      return some (s.cell (.object n members) (.object (s.identity (.object n members))
        (entries.map fun c : Cell × Cell => (c.1.reading, c.2.reading))))) hmembers
  | call n callee arguments optional =>
    have hcallee : childIn (.call n callee arguments optional) .callee = pure callee := rfl
    simp only [slotRule, ruleBy, hcallee, pure_bind]
    cases hcontext : s.context with
    | none => simp only [call, hcontext]
    | some context => rfl
  | assign n op target value => cases op <;> cases target <;> rfl
  | conditional n test consequent alternate =>
    have hbranch : (fun v : Value => do
        let branch ← childIn (.conditional n test consequent alternate)
          (if v.isTruthy then .consequent else .alternate)
        ev branch) = fun v => if v.isTruthy then ev consequent else ev alternate := by
      funext v
      cases v.isTruthy <;> rfl
    exact congrArg (fun k : Value → Evaluation Answer => do
      let some t ← ev test | return none
      let v ← read t
      k v) hbranch

/-- `ev` evaluates each node by the rule that finds the nodes below in slots. -/
def FollowsSlots (s : Setting) (ev : Expr → Evaluation Answer) : Prop :=
  ∀ e, ev e = once s e (slotRule ev s e)

/-- There is one evaluation that finds nodes in slots: the evaluation that takes nodes apart. -/
theorem followsSlots_iff : FollowsSlots s ev ↔ ev = answer s := by
  constructor
  · intro h
    funext e
    induction e using Expr.below_induction with
    | h e ih => rw [h e, slotRule_eq, ruleBy_congr ih, ← answer_eq]
  · rintro rfl e
    rw [slotRule_eq]
    exact answer_eq e

end ScriptFold.Evaluation
