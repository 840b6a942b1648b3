import ScriptFold.Evaluation

/-!
Evaluators: evaluations of one program that share what they learn.
-/

namespace ScriptFold

structure Evaluator where
  setting : Setting
  memory : Memory

namespace Evaluator

def new (s : Setting) : Evaluator := ⟨s, .empty⟩

def withLocal (v : Evaluator) (name : String) (c : Cell) : Evaluator :=
  { v with memory := { v.memory with locals := Assoc.put name c v.memory.locals } }

def withKnown (v : Evaluator) (id : NodeId) (a : Answer) : Evaluator :=
  { v with memory := { v.memory with memo := Assoc.put id a v.memory.memo } }

def child (v : Evaluator) (owner : Nat) : Evaluator :=
  ⟨{ v.setting with owner := owner }, { v.memory with trace := [] }⟩

/-- Evaluates a node. What was learnt stays also after a fault. -/
def evaluate (v : Evaluator) (e : Expr) : Except Fault Answer × Evaluator :=
  let (result, memory) := (Evaluation.answer v.setting e).run v.memory
  (result, { v with memory := memory })

/-- Evaluates nodes in order up to the first fault; gives the answer for the last one. -/
def evaluateAll (v : Evaluator) (last : Answer) : List Expr → Except Fault Answer
  | [] => .ok last
  | e :: rest =>
    match v.evaluate e with
    | (.error fault, _) => .error fault
    | (.ok a, v) => v.evaluateAll a rest

def cached? (v : Evaluator) (id : NodeId) : Option Answer := v.memory.memo.lookup id

end Evaluator

end ScriptFold
