import ScriptFold.Fault
import ScriptFold.Index

/-!
Constants: what is known of a node without evaluating it.

Constants are the literals, three names that every script knows, and names that `const` gives
such a value. A chain of names is followed until it ends or comes back.
-/

namespace ScriptFold

/-- What some other means knows about the nodes of a program. -/
abbrev Baseline := Expr → Option Reading

namespace Baseline

def nothing : Baseline := fun _ => none

/-- The value of a name that nothing declares. -/
def global? : String → Option Value
  | "undefined" => some .undefined
  | "NaN" => some (.number Number.nan)
  | "Infinity" => some (.number Number.infinity)
  | _ => none

def literal? : Expr → Option Value
  | .null _ => some .null
  | .bool _ b => some (.bool b)
  | .number _ x => some (.number x)
  | .string _ s => some (.string s)
  | _ => none

def constInit? : BindingKind → Option NodeId
  | .var .constVar init => init
  | _ => none

def others (id : NodeId) (entries : List Entry) : List Entry := entries.filter (·.expr.id ≠ id)

theorem length_others_lt {entries : List Entry} {entry : Entry} (h : entry ∈ entries) :
    (others entry.expr.id entries).length < entries.length :=
  List.length_filter_lt_length_iff_exists.2 ⟨entry, h, by simp⟩

/-- The constant that a node stands for. The nodes that a chain of names may still come to are
`ahead`; each of them is visited once. -/
def constantFrom (index : Index) (ahead : List Entry) (e : Expr) : Option Value :=
  match e with
  | .ident _ name =>
    if index.isReference e then
      match index.binding? e with
      | none => global? name
      | some binding =>
        match h : (constInit? binding.kind).bind fun init => ahead.find? (·.expr.id = init) with
        | none => none
        | some entry =>
          have : (others entry.expr.id ahead).length < ahead.length :=
            have ⟨_, _, found⟩ := Option.bind_eq_some_iff.1 h
            length_others_lt (List.mem_of_find?_eq_some found)
          constantFrom index (others entry.expr.id ahead) entry.expr
    else none
  | e => literal? e
termination_by ahead.length

def constant (index : Index) : Baseline := fun e =>
  (constantFrom index index.entries e).map .ok

end Baseline

end ScriptFold
