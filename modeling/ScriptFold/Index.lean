import ScriptFold.Program

/-!
The index of a program: where its nodes hang and what its names mean.

Every node is listed with the node it hangs from and the blocks around it, every declaration with
the block that it belongs to. Imports and `var` belong to the program as a whole, other variables
to the block of their statement. A name means the last declaration of it in the innermost block
that declares it.
-/

namespace ScriptFold

/-- The number of a block. The program itself is 0, its blocks are numbered where they start. -/
abbrev ScopeId := Nat

/-- How a name is declared. -/
inductive BindingKind
  | imported (source : String) (what : Imported)
  | var (kind : VarKind) (init : Option NodeId)
deriving DecidableEq, Repr

structure Binding where
  name : String
  kind : BindingKind
  span : Span
deriving DecidableEq, Repr

structure Declaration where
  scope : ScopeId
  binding : Binding
deriving DecidableEq, Repr

structure Entry where
  expr : Expr
  /-- The node it hangs from; none for a statement or an initial value. -/
  parent : Option Expr
  /-- The blocks around it, innermost first. -/
  scopes : List ScopeId

def Expr.entries (scopes : List ScopeId) (e : Expr) : List Entry :=
  (e.withParents none).map fun (node, parent) => ⟨node, parent, scopes⟩

namespace Stmt

mutual

def blocks : Stmt → Nat
  | block _ body => blocksAll body + 1
  | importDecl _ _ | declare _ _ _ | expr _ _ | empty _ => 0

def blocksAll : List Stmt → Nat
  | [] => 0
  | s :: rest => blocks s + blocksAll rest

end

mutual

/-- The nodes of a statement inside some blocks, where `fresh` is the first block number that is
still free. -/
def entries (scopes : List ScopeId) (fresh : ScopeId) : Stmt → List Entry
  | expr _ e => e.entries scopes
  | declare _ _ ds => ds.flatMap fun d => d.init.toList.flatMap (·.entries scopes)
  | block _ body => entriesAll (fresh :: scopes) (fresh + 1) body
  | importDecl _ _ | empty _ => []

def entriesAll (scopes : List ScopeId) (fresh : ScopeId) : List Stmt → List Entry
  | [] => []
  | s :: rest => entries scopes fresh s ++ entriesAll scopes (fresh + blocks s) rest

end

def importDeclarations (decl : Import) : List Declaration :=
  decl.specifiers.map fun s => ⟨0, s.name.text, .imported decl.source s.imported, s.name.span⟩

/-- The block that variables of a declaration statement belong to. -/
def home (scope : ScopeId) : VarKind → ScopeId
  | .varVar => 0
  | .constVar | .letVar => scope

def variableDeclaration (scope : ScopeId) (kind : VarKind) (d : Declarator) : Declaration :=
  ⟨home scope kind, d.name.text, .var kind (d.init.map Expr.id), d.name.span⟩

mutual

def declarations (scope fresh : ScopeId) : Stmt → List Declaration
  | importDecl _ decl => importDeclarations decl
  | declare _ kind ds => ds.map (variableDeclaration scope kind)
  | block _ body => declarationsAll fresh (fresh + 1) body
  | expr _ _ | empty _ => []

def declarationsAll (scope fresh : ScopeId) : List Stmt → List Declaration
  | [] => []
  | s :: rest => declarations scope fresh s ++ declarationsAll scope (fresh + blocks s) rest

end

end Stmt

structure Index where
  /-- Each node before the nodes below it, in source order. -/
  entries : List Entry
  /-- In source order. -/
  declarations : List Declaration

namespace Index

def ofProgram (p : Program) : Index :=
  ⟨Stmt.entriesAll [0] 1 p.body, Stmt.declarationsAll 0 1 p.body⟩

def entry? (index : Index) (id : NodeId) : Option Entry :=
  index.entries.find? fun entry => entry.expr.id = id

def node? (index : Index) (id : NodeId) : Option Expr := (index.entry? id).map (·.expr)

def parent? (index : Index) (id : NodeId) : Option Expr := (index.entry? id).bind (·.parent)

/-- The blocks around a node, innermost first. -/
def scopes (index : Index) (id : NodeId) : List ScopeId :=
  match index.entry? id with
  | some entry => entry.scopes
  | none => []

/-! ## Names -/

/-- The last declaration of a name in one block. -/
def declared? (index : Index) (name : String) (scope : ScopeId) : Option Binding :=
  let last? := index.declarations.reverse.find? fun d => d.scope = scope && d.binding.name = name
  last?.map (·.binding)

/-- What a name means inside some blocks, innermost first. -/
def lookup (index : Index) (scopes : List ScopeId) (name : String) : Option Binding :=
  scopes.findSome? (index.declared? name)

/-- Whether a node names a part of the node it hangs from, as the key of a property or the member
after a point. Such a name is not read as a variable. -/
def isPartName (index : Index) (e : Expr) : Bool :=
  match index.parent? e.id with
  | some (.member _ _ property false _) => property.id = e.id
  | some (.property _ key _ false _) => key.id = e.id
  | _ => false

/-- Whether a node is an identifier that is read as a variable. -/
def isReference (index : Index) (e : Expr) : Bool := e.name?.isSome && !index.isPartName e

def binding? (index : Index) (e : Expr) : Option Binding :=
  if index.isReference e then e.name?.bind (index.lookup (index.scopes e.id)) else none

/-- Whether an identifier refers to an export of a module. -/
def bindsImport (index : Index) (source exported : String) (e : Expr) : Bool :=
  match index.binding? e with
  | some ⟨_, .imported source' what, _⟩ => source' = source && what.isExport exported
  | _ => false

/-- Whether the value of a node is an export of a module: an identifier that an import declares,
or a member of a name for the whole module. The name `*` asks for the whole module. -/
def referencesImport (index : Index) (source : String) : Expr → String → Bool
  | .ident node name, exported => index.bindsImport source exported (.ident node name)
  | .member _ object (.ident _ name) false _, exported
  | .member _ object (.string _ name) true _, exported =>
    name = exported && index.referencesImport source object "*"
  | _, _ => false

end Index

end ScriptFold
