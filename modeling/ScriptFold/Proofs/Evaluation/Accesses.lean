import ScriptFold.Fold
import ScriptFold.Proofs.Evaluation.Run

/-!
What becomes of variables in the course of an evaluation.

An evaluation reads variables and writes them, and it passes writes in the text without recording
them: because it does not evaluate them, or because the new value is not known. The list of all
this, in order, is a function of the tree and of the memory from which the evaluation starts.
-/

namespace ScriptFold

/-- A read or a write of a variable. A write that is not recorded has no answer. -/
inductive Access
  | read (name : String) (a : Answer)
  | write (name : String) (a : Answer)

namespace Expr

def written? : Expr → Option String
  | assign _ _ (ident _ name) _ => some name
  | _ => none

def writes (e : Expr) : List String := (e.withParents none).filterMap fun (node, _) => node.written?

end Expr

namespace Stmt

mutual

/-- The variables that a statement which is not evaluated writes: those that it assigns to and
those that it declares with a value. -/
def writes : Stmt → List String
  | expr _ e => e.writes
  | declare _ _ ds => ds.flatMap fun d =>
    match d.init with
    | some e => e.writes ++ [d.name.text]
    | none => []
  | block _ body => writesAll body
  | importDecl _ _ | empty _ => []

def writesAll : List Stmt → List String
  | [] => []
  | s :: rest => writes s ++ writesAll rest

end

end Stmt

/-- Writes that are passed without being evaluated. -/
def passed (names : List String) : List Access := names.map fun name => .write name none

namespace Evaluation

def andThen {α : Type} (x : Evaluation α) (m : Memory) (log : α → Memory → List Access) :
    List Access :=
  match x.run m with
  | (.ok a, m') => log a m'
  | (.error _, _) => []

/-- What comes of a node by its rule. What the baseline knows is not evaluated. -/
def byRule (s : Setting) (e : Expr) (m : Memory) (log : Memory → List Access) : List Access :=
  match s.baseline e with
  | some _ => passed e.writes
  | none => log (m.asking e)

mutual

/-- The accesses in the evaluation of a node that nothing is remembered for. The text of a member
access is passed before its property is evaluated. -/
def accesses (s : Setting) (m : Memory) : Expr → List Access
  | .ident n name =>
    byRule s (.ident n name) m fun _ =>
      andThen (answer s (.ident n name)) m fun a _ => [.read name a]
  | .array n elements => byRule s (.array n elements) m fun m => elementAccesses s m elements
  | .object n members => byRule s (.object n members) m fun m => memberAccesses s m members
  | .member n object property computed optional =>
    byRule s (.member n object property computed optional) m fun m =>
      passed object.writes ++
      (if computed ∨ property.name?.isNone then accesses s m property else []) ++
      andThen (answer s property) m fun k m =>
        if (s.keyOf computed property k).isSome then accesses s m object else []
  | .assign n .simple (.ident n' name) value =>
    byRule s (.assign n .simple (.ident n' name) value) m fun m =>
      accesses s m value ++ andThen (answer s value) m fun a _ => [.write name a]
  | .binary n op left right =>
    byRule s (.binary n op left right) m fun m =>
      if op.function?.isNone then passed (left.writes ++ right.writes)
      else
        accesses s m left ++ andThen (answer s left) m fun a m =>
          if a.isSome then accesses s m right else passed right.writes
  | .logical n op left right =>
    byRule s (.logical n op left right) m fun m =>
      accesses s m left ++ andThen (answer s left) m fun a m =>
        if a.isSome then accesses s m right else passed right.writes
  | .unary n op argument =>
    byRule s (.unary n op argument) m fun m =>
      if op.function?.isNone then passed argument.writes else accesses s m argument
  | .conditional n test consequent alternate =>
    byRule s (.conditional n test consequent alternate) m fun m =>
      accesses s m test ++ andThen (answer s test) m fun t m =>
        match t with
        | none => passed (consequent.writes ++ alternate.writes)
        | some t =>
          match t.reading with
          | .error _ => []
          | .ok v => if v.isTruthy then accesses s m consequent else accesses s m alternate
  | e => byRule s e m fun _ => passed e.writes

def elementAccesses (s : Setting) (m : Memory) : List (Option Expr) → List Access
  | [] => []
  | none :: rest => elementAccesses s m rest
  | some element :: rest =>
    accesses s m element ++ andThen (answer s element) m fun _ m => elementAccesses s m rest

/-- The accesses in the evaluation of the members of an object, up to the first spread; the text
after it is passed. -/
def memberAccesses (s : Setting) (m : Memory) : List Expr → List Access
  | [] => []
  | .property _ key value computed _ :: rest =>
    (if computed ∨ key.name?.isNone then accesses s m key else []) ++
    andThen (answer s key) m fun _ m =>
      accesses s m value ++ andThen (answer s value) m fun _ m => memberAccesses s m rest
  | e :: rest => passed ((e :: rest).flatMap Expr.writes)

end

end Evaluation

def Evaluator.accesses (v : Evaluator) : List Stmt → List Access
  | [] => []
  | .expr _ e :: rest =>
    Evaluation.accesses v.setting v.memory e ++
    match v.evaluate e with
    | (.ok _, v') => v'.accesses rest
    | (.error _, _) => []
  | stmt :: rest => passed stmt.writes ++ v.accesses rest

def Program.accesses (p : Program) (state? : Option Build.State) : List Access :=
  (Evaluator.new (.ofProgram p state?)).accesses p.body

end ScriptFold
