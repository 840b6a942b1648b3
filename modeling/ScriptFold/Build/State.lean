import ScriptFold.Build.Options
import ScriptFold.Span
import ScriptFold.Text.Split

/-!
The state of a build for one file: the options, the name of the file, and the names that the
file imports at run time.

A file belongs to the package in the nearest folder around it. Slashes at the end of a folder do
not count.
-/

namespace ScriptFold.Build

inductive RuntimeImport
  | config
  | testing
deriving DecidableEq, Repr

structure State where
  options : Options
  filename : String
  /-- By name; each name comes once. -/
  runtimeImports : List (String × RuntimeImport)

/-- A folder without the slashes at its end. -/
def folder (root : String) : List Char := (root.toList.reverse.dropWhile (· = '/')).reverse

/-- Whether a path is a folder or lies below it. -/
def isWithin (path root : String) : Bool :=
  match Text.dropStart? (folder root) path.toList with
  | some [] | some ('/' :: _) => true
  | _ => false

namespace State

def runtimeImport? (s : State) (name : String) : Option RuntimeImport :=
  s.runtimeImports.lookup name

/-- Of two packages the one whose folder has more bytes, or else the later one. -/
def nearer (p : Option Package) (q : Package) : Option Package :=
  match p with
  | none => some q
  | some p =>
    if byteLength (folder p.root) ≤ byteLength (folder q.root) then some q else some p

/-- The package that the file belongs to. -/
def owningPackage? (s : State) : Option Package :=
  (s.options.packages.filter fun p => isWithin s.filename p.root).foldl nearer none

def isDeveloping (s : State) (root : String) : Bool :=
  s.options.developing.any fun candidate => folder candidate = folder root

end State

end ScriptFold.Build
