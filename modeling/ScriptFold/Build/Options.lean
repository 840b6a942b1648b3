import ScriptFold.Json

/-!
Options of a build: what is known about all its packages.
-/

namespace ScriptFold.Build

structure Package where
  name : String
  version : String
  /-- The folder of the package. -/
  root : String
deriving DecidableEq, Repr

structure Options where
  /-- The folder of the package that the build makes. -/
  appRoot : Option String
  /-- The folders of packages that are being developed. -/
  developing : List String
  packages : List Package
  /-- The modules that exist. -/
  modules : List String
  /-- What users set for packages, by folder, in the order of the folders. -/
  userConfigs : List (String × Json)
  /-- What is set for all packages. -/
  globalConfig : List (String × Json)

namespace Options

def empty : Options := ⟨none, [], [], [], [], []⟩

def package? (o : Options) (name : String) : Option Package := o.packages.find? (·.name = name)

end Options

end ScriptFold.Build
