import ScriptFold.Evaluation.Memory
import ScriptFold.Operator

/-!
The evaluation of nodes.

A node is evaluated at most once: its answer is remembered, unless the evaluation ends in a
fault. The baseline is asked before the rules. By the rules an answer is known only if all that it
rests on is known.

Where an operand is not known, the operands after it are not evaluated. The members of arrays and
objects are all evaluated, up to the first spread of an object.
-/

namespace ScriptFold

/-! ## Cells -/

/-- The cell that the evaluation of a node makes. -/
def Setting.cell (s : Setting) (e : Expr) (reading : Reading) : Cell :=
  ⟨.node s.owner e.id, reading⟩

def Setting.identity (s : Setting) (e : Expr) : Identity := ⟨.node s.owner e.id, []⟩

/-- An answer for a name that is not read as a variable: if it is not known what the name stands
for, the name itself. -/
def Setting.spelled (s : Setting) (e : Expr) (a : Answer) : Answer :=
  a <|> e.name?.map fun name => s.cell e (.ok (.string name))

def Setting.keyOf (s : Setting) (computed : Bool) (e : Expr) (a : Answer) : Answer :=
  if computed then a else s.spelled e a

namespace Evaluation

/-- The remembered answer for a node, or else what the baseline knows, or else what the rule
gives. -/
def once (s : Setting) (e : Expr) (rule : Evaluation Answer) : Evaluation Answer := do
  match ← remembered? e.id with
  | some a => return a
  | none =>
    note (.asked e.nodeName)
    let a ← match s.baseline e with
      | some reading => pure (some (s.cell e reading))
      | none => rule
    remember e.id a
    return a

/-! ## Calls -/

/-- The name of a callee that is imported as a configuration for run time. -/
def deferredName? (state : Build.State) (callee : Expr) : Option String :=
  callee.name?.filter fun name => state.runtimeImport? name = some .config

def macro? (index : Index) (callee : Expr) : Option BuildMacro :=
  BuildMacro.all.find? fun m => index.referencesImport BuildMacro.source callee m.name

def macroValue (s : Setting) (call : Expr) (json? : Option Json) : Value :=
  match json? with
  | some json => .ofJson (s.identity call) json
  | none => .undefined

def call (s : Setting) (e callee : Expr) : Evaluation Answer :=
  match s.context with
  | none => return none
  | some context =>
    match deferredName? context.state callee with
    | some name => return some (s.cell e (.error (.deferred name)))
    | none =>
      match macro? s.index callee with
      | none => return none
      | some m => do
        note (.called m e.nodeName)
        match context.handlers m e context.state with
        | .ok json? => return some (s.cell e (.ok (macroValue s e json?)))
        | .error fault => throw (.call fault)

/-! ## Rules -/

mutual

def answer (s : Setting) (e : Expr) : Evaluation Answer :=
  once s e <|
    match e with
    | .null _ => return some (s.cell e (.ok .null))
    | .bool _ b => return some (s.cell e (.ok (.bool b)))
    | .number _ x => return some (s.cell e (.ok (.number x)))
    | .string _ t => return some (s.cell e (.ok (.string t)))
    | .ident _ name => local? name
    | .array _ elements => do
      let some items ← answerElements s elements | return none
      return some (s.cell e (.array (s.identity e) (items.map (·.reading))))
    | .object _ members => do
      let some entries ← answerMembers s members | return none
      return some (s.cell e (.object (s.identity e)
        (entries.map fun (key, value) => (key.reading, value.reading))))
    | .member _ object property computed optional => do
      let some key := s.keyOf computed property (← answer s property) | return none
      let some o ← answer s object | return none
      return some (s.cell e (.member optional o.reading key.reading))
    | .call _ callee _ _ => call s e callee
    | .assign _ .simple (.ident _ name) value => do
      let a ← answer s value
      assign name a
      return a
    | .binary _ op left right =>
      match op.function? with
      | none => return none
      | some f => do
        let some a ← answer s left | return none
        let some b ← answer s right | return none
        return some (s.cell e (.binary f a.reading b.reading))
    | .logical _ op left right => do
      let some a ← answer s left | return none
      let some b ← answer s right | return none
      return some (s.cell e (.binary op.function a.reading b.reading))
    | .unary _ op argument =>
      match op.function? with
      | none => return none
      | some f => do
        let some a ← answer s argument | return none
        return some (s.cell e (.unary f a.reading))
    | .conditional _ test consequent alternate => do
      let some t ← answer s test | return none
      let v ← read t
      if v.isTruthy then answer s consequent else answer s alternate
    | .assign _ _ _ _ | .property _ _ _ _ _ | .spread _ _ | .sequence _ _ | .invalid _ =>
      return none

/-- The cells of all elements of an array. A hole is not known. -/
def answerElements (s : Setting) : List (Option Expr) → Evaluation (Option (List Cell))
  | [] => return some []
  | none :: rest => do
    let _ ← answerElements s rest
    return none
  | some element :: rest => do
    let item ← answer s element
    let items ← answerElements s rest
    return do return (← item) :: (← items)

/-- The cells of the keys and values of an object. Nothing is known with a spread, and nothing is
evaluated after it. -/
def answerMembers (s : Setting) : List Expr → Evaluation (Option (List (Cell × Cell)))
  | [] => return some []
  | .property _ key value computed _ :: rest => do
    let k ← answer s key
    let v ← answer s value
    let entries ← answerMembers s rest
    return do return (← s.keyOf computed key k, ← v) :: (← entries)
  | _ :: _ => return none

end

end Evaluation

end ScriptFold
