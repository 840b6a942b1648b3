/-!
Versions and their order.

A version has three numbers and possibly a tag for a pre-release, which is a list of marks. All
pre-releases of a version come before it.
-/

namespace ScriptFold

inductive Tag
  | numeric (n : Nat)
  | alpha (s : String)
deriving DecidableEq, Repr

/-- Numbers come before words. -/
def Tag.compare : Tag → Tag → Ordering
  | numeric n, numeric m => Ord.compare n m
  | numeric _, alpha _ => .lt
  | alpha _, numeric _ => .gt
  | alpha s, alpha t => Ord.compare s t

instance : Ord Tag := ⟨Tag.compare⟩

def Tag.text : Tag → String
  | numeric n => toString n
  | alpha s => s

structure Version where
  major : Nat
  minor : Nat
  patch : Nat
  /-- The parts of the pre-release tag; none for a release. -/
  tags : List Tag
deriving DecidableEq, Repr

namespace Version

/-- The least version with three given numbers. -/
def floor (major minor patch : Nat) : Version := ⟨major, minor, patch, [.numeric 0]⟩

def isPrerelease (v : Version) : Bool := !v.tags.isEmpty

/-- A release comes after its pre-releases, and those in the order of their tags. -/
def compareTags : List Tag → List Tag → Ordering
  | [], [] => .eq
  | [], _ :: _ => .gt
  | _ :: _, [] => .lt
  | ts, us => Ord.compare ts us

def compare (v w : Version) : Ordering :=
  (Ord.compare v.major w.major).then <| (Ord.compare v.minor w.minor).then <|
    (Ord.compare v.patch w.patch).then <| compareTags v.tags w.tags

instance : Ord Version := ⟨Version.compare⟩

def tagText (ts : List Tag) : String :=
  if ts.isEmpty then "" else "-" ++ ".".intercalate (ts.map Tag.text)

def text (v : Version) : String :=
  toString v.major ++ "." ++ toString v.minor ++ "." ++ toString v.patch ++ tagText v.tags

end Version

end ScriptFold
