import ScriptFold.Build.State
import ScriptFold.Expr.Slot
import ScriptFold.Version.Range

/-!
Macros: calls that a build answers.

The arguments of a macro are string literals, so that a call can be answered from the state of
the build alone.
-/

namespace ScriptFold

inductive BuildMacro
  | dependencySatisfies
  | moduleExists
  | getConfig
  | getOwnConfig
  | getGlobalConfig
  | isDevelopingApp
  | isDevelopingThisPackage
  | isTesting
deriving DecidableEq, Repr

namespace BuildMacro

def source : String := "@embroider/macros"

def all : List BuildMacro := [dependencySatisfies, moduleExists, getConfig, getOwnConfig,
  getGlobalConfig, isDevelopingApp, isDevelopingThisPackage, isTesting]

def name : BuildMacro → String
  | dependencySatisfies => "dependencySatisfies"
  | moduleExists => "moduleExists"
  | getConfig => "getConfig"
  | getOwnConfig => "getOwnConfig"
  | getGlobalConfig => "getGlobalConfig"
  | isDevelopingApp => "isDevelopingApp"
  | isDevelopingThisPackage => "isDevelopingThisPackage"
  | isTesting => "isTesting"

def arity : BuildMacro → Nat
  | dependencySatisfies => 2
  | moduleExists | getConfig => 1
  | _ => 0

end BuildMacro

namespace Build

inductive MacroError
  | argumentCount (called : BuildMacro) (found : Nat)
  | notStringLiteral (called : BuildMacro) (index : Nat)
  | slot (e : SlotError)
deriving DecidableEq, Repr

def MacroError.message : MacroError → String
  | argumentCount m found => s!"{m.name} takes {m.arity} argument(s), found {found}"
  | notStringLiteral m index => s!"argument {index} of {m.name} must be a string literal"
  | slot e => e.message

/-- What answers calls: a JSON value, or none for undefined. -/
abbrev Handlers := BuildMacro → Expr → State → Except MacroError (Option Json)

def literalTexts (m : BuildMacro) (index : Nat) :
    List (Option Expr) → Except MacroError (List String)
  | [] => .ok []
  | some (.string _ s) :: rest => do return s :: (← literalTexts m (index + 1) rest)
  | _ :: _ => .error (.notStringLiteral m index)

def argumentTexts (m : BuildMacro) (call : Expr) : Except MacroError (List String) := do
  let arguments ← (call.list .arguments).mapError .slot
  if arguments.length ≠ m.arity then throw (.argumentCount m arguments.length)
  literalTexts m 0 arguments

namespace State

def config? (s : State) (p : Package) : Option Json := s.options.userConfigs.lookup p.root

/-- Whether a package of some name has a version in a range. Macros are taken to run where sums wrap
around, so that there always is an answer. -/
def satisfies (s : State) (name range : String) : Bool :=
  (s.options.package? name).any fun p => Version.satisfies .wraps p.version range == some true

def isTesting (s : State) : Bool :=
  ((s.options.globalConfig.lookup BuildMacro.source).bind (·.field? "isTesting")).any Json.isTruthy

def answer (s : State) : BuildMacro → List String → Option Json
  | .dependencySatisfies, [name, range] => some (.bool (s.satisfies name range))
  | .moduleExists, [name] => some (.bool (s.options.modules.contains name))
  | .getConfig, [name] => (s.options.package? name).bind s.config?
  | .getOwnConfig, _ => s.owningPackage?.bind s.config?
  | .getGlobalConfig, _ => some (.object s.options.globalConfig)
  | .isDevelopingApp, _ => some (.bool (s.options.appRoot.any s.isDeveloping))
  | .isDevelopingThisPackage, _ =>
    some (.bool (s.owningPackage?.any fun p => s.isDeveloping p.root))
  | .isTesting, _ => some (.bool s.isTesting)
  | .dependencySatisfies, _ | .moduleExists, _ | .getConfig, _ => none

end State

def handlers : Handlers := fun m call s => do return s.answer m (← argumentTexts m call)

end Build

end ScriptFold
