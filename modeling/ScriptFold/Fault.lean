import ScriptFold.Build.Macro
import ScriptFold.Value.Property

/-!
Faults: why an evaluation stops, or why a known value cannot be read.

A fault is not the same as not knowing a value. It says that a tree, a call or a value was used
as it must not be used during a build.
-/

namespace ScriptFold

inductive Fault
  /-- A slot of a node was asked for that is not there. -/
  | slot (e : SlotError)
  /-- The value of a call by this name exists at run time only. -/
  | deferred (name : String)
  | read (e : ReadError)
  | call (e : Build.MacroError)
deriving DecidableEq, Repr

def Fault.message : Fault → String
  | slot e => e.message
  | deferred name =>
    s!"the value returned by `{name}()` only exists at run time and cannot be read during the build"
  | read e => e.message
  | call e => e.message

abbrev Reading := Except Fault Value

namespace Reading

/-- Reads a member. Where the access is optional, a missing object is the answer, and the key is
not read. -/
def member (optional : Bool) (object key : Reading) : Reading := do
  let o ← object
  if optional && o.isNullish then return o
  let k ← key
  (o.get k.toKey).mapError .read

def array (i : Identity) (items : List Reading) : Reading := do
  return .array i (← items.mapM fun item => item)

/-- Reads the keys and values of an object in order. -/
def object (i : Identity) (entries : List (Reading × Reading)) : Reading := do
  return .ofEntries i (← entries.mapM fun (key, value) => do return ((← key).toKey, ← value))

def unary (f : Value → Value) (a : Reading) : Reading := do return f (← a)

def binary (f : Value → Value → Value) (a b : Reading) : Reading := do return f (← a) (← b)

end Reading

end ScriptFold
