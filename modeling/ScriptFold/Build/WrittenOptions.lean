import ScriptFold.Build.Options
import ScriptFold.Json.Reader

/-!
Options as JSON texts.

Options are read from a JSON object with up to six fields, or from an array of their values in
order. Fields that are missing take their defaults, and fields of other names are only checked
for form. A known field may not come twice.
-/

namespace ScriptFold.Build

open Json (Written)

inductive OptionsError
  | malformed
  | unnamedPackage (root : String)
deriving DecidableEq, Repr

def OptionsError.message? : OptionsError → Option String
  | malformed => none
  | unnamedPackage root => some s!"invalid configuration: package at `{root}` has no name"

namespace Reading

/-! ## Fields -/

/-- The members of a record by name. A name that is known may not come twice. -/
def named? (known : List String) :
    List (List Json.Piece × Written) → Option (List (String × Written))
  | [] => some []
  | (key, value) :: rest => do
    let name ← Json.stringOfPieces key
    let entries ← named? known rest
    if known.contains name then
      if (entries.lookup name).isSome then none
      return (name, value) :: entries
    return entries

/-- The fields of a record, in the order of their names. -/
def fields? (names : List String) : Written → Option (List (Option Written))
  | .object members => do
    let entries ← named? names members
    return names.map fun name => entries.lookup name
  | .array items =>
    if items.length ≤ names.length then
      some (items.map some ++ List.replicate (names.length - items.length) none)
    else none
  | _ => none

def orDefault {α : Type} (default : α) (read : Written → Option α) : Option Written → Option α
  | none => some default
  | some w => read w

/-! ## Values -/

def text? : Written → Option String
  | .string pieces => Json.stringOfPieces pieces
  | _ => none

/-- A text, or null for none. -/
def textOrNull? : Written → Option (Option String)
  | .null => some none
  | w => (text? w).map some

def list? {α : Type} (read : Written → Option α) : Written → Option (List α)
  | .array items => items.mapM read
  | _ => none

/-- Values by key, with at most `depth` levels. -/
def entries? (depth : Nat) : Written → Option (List (String × Json))
  | .object members => (Json.decodeMembers depth members).map Assoc.ofList
  | _ => none

def package? (w : Written) : Option Package := do
  match ← fields? ["name", "version", "root"] w with
  | [some name, some version, some root] => return ⟨← text? name, ← text? version, ← text? root⟩
  | _ => none

end Reading

namespace Options

def fieldNames : List String :=
  ["appPackageRoot", "isDevelopingPackageRoots", "packages", "modules", "userConfigs",
    "globalConfig"]

def sorted (entries : List (String × Json)) : List (String × Json) :=
  entries.mergeSort fun a b => decide (a.1 ≤ b.1)

open Reading in
/-- The options that a JSON value writes. Two levels of it are the options themselves. -/
def ofWritten? (w : Written) : Option Options := do
  let depth := Json.maxDepth - 2
  match ← fields? fieldNames w with
  | [appRoot, developing, packages, modules, userConfigs, globalConfig] =>
    return {
      appRoot := ← orDefault none textOrNull? appRoot
      developing := ← orDefault [] (list? text?) developing
      packages := ← orDefault [] (list? Reading.package?) packages
      modules := ← orDefault [] (list? text?) modules
      userConfigs := sorted (← orDefault [] (entries? depth) userConfigs)
      globalConfig := ← orDefault [] (entries? depth) globalConfig }
  | _ => none

/-- The options that a JSON text writes. Every package must have a name. -/
def ofText (text : String) : Except OptionsError Options :=
  match (Written.ofText? text).bind ofWritten? with
  | none => .error .malformed
  | some options =>
    match options.packages.find? (·.name.isEmpty) with
    | some package => .error (.unnamedPackage package.root)
    | none => .ok options

def packageJson (p : Package) : Json :=
  .object [("name", .string p.name), ("version", .string p.version), ("root", .string p.root)]

def toJson (o : Options) : Json :=
  .object (fieldNames.zip [
    o.appRoot.elim .null .string, .array (o.developing.map .string),
    .array (o.packages.map packageJson), .array (o.modules.map .string),
    .object o.userConfigs, .object o.globalConfig])

end Options

end ScriptFold.Build
