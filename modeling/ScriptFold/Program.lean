import ScriptFold.Expr

/-!
Modules: statements and the names that they declare.
-/

namespace ScriptFold

structure Name where
  text : String
  span : Span
deriving DecidableEq, Repr

inductive Imported
  | named (name : String)
  | defaultExport
  | wholeModule
deriving DecidableEq, Repr

/-- The import takes what a module exports under a name. The name `default` is the default
export, the name `*` stands for the module as a whole. -/
def Imported.isExport (i : Imported) (exported : String) : Bool :=
  match i with
  | named name => name = exported
  | defaultExport => exported = "default"
  | wholeModule => exported = "*"

structure ImportSpecifier where
  name : Name
  imported : Imported
  span : Span
deriving DecidableEq, Repr

structure Import where
  specifiers : List ImportSpecifier
  source : String
deriving DecidableEq, Repr

inductive VarKind
  | constVar
  | letVar
  | varVar
deriving DecidableEq, Repr

structure Declarator where
  name : Name
  init : Option Expr
  span : Span

inductive Stmt where
  | importDecl (span : Span) (decl : Import)
  | declare (span : Span) (kind : VarKind) (declarators : List Declarator)
  | block (span : Span) (body : List Stmt)
  | expr (span : Span) (e : Expr)
  | empty (span : Span)

structure Program where
  body : List Stmt
  span : Span

namespace Program

def ofExpr (e : Expr) : Program := ⟨[.expr e.span e], e.span⟩

def imports (p : Program) : List Import :=
  p.body.filterMap fun
    | .importDecl _ decl => some decl
    | _ => none

def expressions (p : Program) : List Expr :=
  p.body.filterMap fun
    | .expr _ e => some e
    | _ => none

def tail? (p : Program) : Option Expr := p.expressions.getLast?

end Program

end ScriptFold
