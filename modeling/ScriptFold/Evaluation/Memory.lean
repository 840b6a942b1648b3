import ScriptFold.Constant

/-!
What an evaluation works with: answers, what it remembers of them, and what it may ask.
-/

namespace ScriptFold

/-- A value that is known. Two cells are the same if one evaluation of one node made both. -/
structure Cell where
  maker : Maker
  reading : Reading

/-- What is known of the value of a node; `none` if it is not known. -/
abbrev Answer := Option Cell

/-- What an evaluation does that others may notice. -/
inductive Event
  /-- The baseline was asked about a node. -/
  | asked (node : NodeName)
  /-- A macro was called at a node. -/
  | called (m : BuildMacro) (node : NodeName)
deriving DecidableEq, Repr

/-- What an evaluator has learnt. -/
structure Memory where
  /-- The answers for the nodes that were evaluated. -/
  memo : List (NodeId × Answer)
  /-- The values of variables that were assigned. -/
  locals : List (String × Cell)
  /-- What was done so far, the latest first. -/
  trace : List Event

def Memory.empty : Memory := ⟨[], [], []⟩

/-- A computation that remembers, also when it ends in a fault. -/
abbrev Evaluation := ExceptT Fault (StateM Memory)

structure Context where
  state : Build.State
  handlers : Build.Handlers

/-- What evaluations of one evaluator have in common. -/
structure Setting where
  index : Index
  baseline : Baseline
  /-- Without a context no call is answered. -/
  context : Option Context
  /-- The number of the evaluator. -/
  owner : Nat

namespace Evaluation

def remembered? (id : NodeId) : Evaluation (Option Answer) := do return (← get).memo.lookup id

def remember (id : NodeId) (a : Answer) : Evaluation Unit :=
  modify fun m => { m with memo := Assoc.put id a m.memo }

def note (event : Event) : Evaluation Unit :=
  modify fun m => { m with trace := event :: m.trace }

def local? (name : String) : Evaluation Answer := do return (← get).locals.lookup name

def assign (name : String) : Answer → Evaluation Unit
  | some c => modify fun m => { m with locals := Assoc.put name c m.locals }
  | none => return

def read (c : Cell) : Evaluation Value :=
  match c.reading with
  | .ok v => return v
  | .error fault => throw fault

end Evaluation

end ScriptFold
