import ScriptFold.Grammar.Expression

/-!
Statements from tokens: imports, declarations, blocks and expressions.

A statement that cannot be read is left out, and reading goes on at the next one.
-/

namespace ScriptFold.Grammar

open Cursor

/-! ## Imports -/

/-- The name that a specifier takes, and whether it may be declared as it is. -/
def importedName? : TokenKind → Option (String × Bool)
  | .string s => some (s, false)
  | k => k.name?.map fun name => (name, k.binding?.isSome)

def importedOf (name : String) : Imported :=
  if name = "default" then .defaultExport else .named name

def importSpecifier (s : Cursor) : Parsed (Option ImportSpecifier) s :=
  match s.take importedName? with
  | none => ⟨none, s.complain .expectedImportedName, Nat.le_refl _⟩
  | some ((name, bindable), span, ⟨s₁, h₁⟩) =>
    match s₁.eatWord .asWord with
    | some ⟨s₂, h₂⟩ =>
      let ⟨found, s₃, h₃⟩ := s₂.expectBinding
      ⟨found.map fun bound => ⟨bound, importedOf name, span.cover s₃.last⟩, s₃,
        left_le_of_lt_of_lt_of_le h₁ h₂ h₃⟩
    | none =>
      if bindable then
        ⟨some ⟨⟨name, span⟩, importedOf name, span.cover s₁.last⟩, s₁, left_le_of_lt h₁⟩
      else ⟨none, s₁.complain (.mustBeRenamed name), Nat.le_of_lt h₁⟩

def stringValue? : TokenKind → Option String
  | .string s => some s
  | _ => none

def importSource (specifiers : List ImportSpecifier) (s : Cursor) : Parsed (Option Import) s :=
  let ⟨found, s₁, h₁⟩ := s.expect (.keyword .fromWord)
  if found then
    match s₁.take stringValue? with
    | some (source, _, ⟨s₂, h₂⟩) =>
      ⟨some ⟨specifiers, source⟩, s₂.eatSemicolon, left_eatSemicolon_le_of_le_of_lt h₁ h₂⟩
    | none => ⟨none, s₁.complain .expectedModule, h₁⟩
  else ⟨none, s₁, h₁⟩

def importGroup (specifiers : List ImportSpecifier) (s : Cursor) : Parsed (Option Import) s :=
  match s.eat .star, s.eat .lbrace with
  | some ⟨s₁, h₁⟩, _ =>
    match s₁.eatWord .asWord with
    | none => ⟨none, s₁.complain .missingAs, Nat.le_of_lt h₁⟩
    | some ⟨s₂, h₂⟩ =>
      let ⟨found, s₃, h₃⟩ := s₂.expectBinding
      match found with
      | none => ⟨none, s₃, left_le_of_lt_of_lt_of_le h₁ h₂ h₃⟩
      | some name =>
        let all := ⟨name, .wholeModule, s.span.cover name.span⟩
        (importSource (specifiers ++ [all]) s₃).weaken (left_le_of_lt_of_lt_of_le h₁ h₂ h₃)
  | _, some ⟨s₁, h₁⟩ =>
    let ⟨named, s₂, h₂⟩ :=
      s₁.commaList .rbrace s₁.left (fun t _ => importSpecifier t) (left_le_self s₁)
    let ⟨closed, s₃, h₃⟩ := s₂.closing .brace s.span
    if closed then
      (importSource (specifiers ++ named) s₃).weaken (left_le_of_lt_of_le_of_le h₁ h₂ h₃)
    else ⟨none, s₃, left_le_of_lt_of_le_of_le h₁ h₂ h₃⟩
  | _, _ => ⟨none, s.complain .expectedSpecifiers, Nat.le_refl _⟩

def importRest (s : Cursor) : Parsed (Option Import) s :=
  match s.take stringValue? with
  | some (source, _, ⟨s₁, h₁⟩) =>
    ⟨some ⟨[], source⟩, s₁.eatSemicolon, left_eatSemicolon_le_of_lt h₁⟩
  | none =>
    match s.binding with
    | none => importGroup [] s
    | some (name, ⟨s₁, h₁⟩) =>
      let first := [⟨name, .defaultExport, name.span⟩]
      match s₁.eat .comma with
      | some ⟨s₂, h₂⟩ => (importGroup first s₂).weaken (left_le_of_lt_of_lt h₁ h₂)
      | none => (importSource first s₁).weaken (left_le_of_lt h₁)

/-! ## Declarations -/

def initializer (s : Cursor) : Parsed (Option Expr) s :=
  match s.eat .eq with
  | some ⟨s₁, h₁⟩ => ((assignment s₁).map some).weaken (left_le_of_lt h₁)
  | none => ⟨none, s, left_le_self s⟩

def checkInitializer (kind : VarKind) (name : Name) (init : Option Expr) (s : Cursor) : Cursor :=
  if kind = .constVar ∧ init.isNone then
    s.report (Complaint.missingInitializer.diagnostic name.span)
  else s

@[simp] theorem left_checkInitializer (kind : VarKind) (name : Name) (init : Option Expr)
    (s : Cursor) : (checkInitializer kind name init s).left = s.left := by
  unfold checkInitializer
  split <;> rfl

def declarators (kind : VarKind) (s : Cursor) : Parsed (List Declarator) s :=
  match s.binding with
  | none =>
    ⟨[], (s.complain (.expectedIdentifier s.kind)).toStatement, left_toStatement_le _⟩
  | some (name, ⟨s₁, h₁⟩) =>
    let ⟨init, s₂, h₂⟩ := initializer s₁
    let one := ⟨name, init, name.span.cover s₂.last⟩
    let s₃ := checkInitializer kind name init s₂
    have h₃ : s₃.left = s₂.left := left_checkInitializer kind name init s₂
    match s₃.eat .comma with
    | some ⟨s₄, h₄⟩ =>
      let ⟨more, s₅, h₅⟩ := declarators kind s₄
      ⟨one :: more, s₅, by omega⟩
    | none =>
      have h₄ := left_eatSemicolon_le s₃
      ⟨[one], s₃.eatSemicolon, by omega⟩
termination_by s.left

def varKind? : TokenKind → Option VarKind
  | .keyword .constWord => some .constVar
  | .keyword .letWord => some .letVar
  | .keyword .varWord => some .varVar
  | _ => none

/-! ## Statements -/

/-- What comes of one statement: when there is one, a token was read. -/
structure ParsedStmt (s : Cursor) where
  value : Option Stmt
  next : Cursor
  le : next.left ≤ s.left
  lt_of_isSome : value.isSome → next.left < s.left

/-- A statement up to a cursor, where tokens were read. -/
def ParsedStmt.of {s : Cursor} (t : Cursor) (h : t.left < s.left) (make : Span → Stmt) :
    ParsedStmt s :=
  ⟨some (make (s.span.cover t.last)), t, left_le_of_lt h, fun _ => h⟩

/-- An expression as a statement. Nothing is read where no expression starts. -/
def expressionStatement (s : Cursor) : ParsedStmt s :=
  let ⟨e, s₁, h₁⟩ := expression s
  if h : s₁.left < s.left then
    .of s₁.eatSemicolon (left_eatSemicolon_lt h) fun span => .expr span e
  else ⟨none, s₁, h₁, by simp⟩

mutual

def statement (s : Cursor) : ParsedStmt s :=
  match s.eatWord .importWord, s.take varKind?, s.eat .lbrace, s.eat .semicolon with
  | some ⟨s₁, h₁⟩, _, _, _ =>
    let ⟨found, s₂, h₂⟩ := importRest s₁
    match found with
    | some decl => .of s₂ (by omega) fun span => .importDecl span decl
    | none => ⟨none, s₂, by omega, by simp⟩
  | _, some (kind, _, ⟨s₁, h₁⟩), _, _ =>
    let ⟨found, s₂, h₂⟩ := declarators kind s₁
    .of s₂ (by omega) fun span => .declare span kind found
  | _, _, some ⟨s₁, h₁⟩, _ =>
    let ⟨body, s₂, h₂⟩ := statements true s₁
    let ⟨_, s₃, h₃⟩ := s₂.closing .brace s.span
    .of s₃ (by omega) fun span => .block span body
  | _, _, _, some ⟨s₁, h₁⟩ => .of s₁ h₁ .empty
  | _, _, _, _ =>
    if s.isAt .rbrace then ⟨none, s.complain .unexpectedBrace, Nat.le_refl _, by simp⟩
    else expressionStatement s
termination_by 2 * s.left

/-- Statements up to the end, or up to a closing brace inside a block. -/
def statements (inBlock : Bool) (s : Cursor) : Parsed (List Stmt) s :=
  if hs : s.left = 0 ∨ (inBlock ∧ s.isAt .rbrace) then ⟨[], s, Nat.le_refl _⟩
  else
    let ⟨found, s₁, h₁, h₂⟩ := statement s
    match found with
    | some stmt =>
      have h₃ := h₂ rfl
      let ⟨more, s₂, h₄⟩ := statements inBlock s₁
      ⟨stmt :: more, s₂, by omega⟩
    | none =>
      have h₃ : s₁.toStatement.left < s.left := left_toStatement_lt h₁ (by omega)
      let ⟨more, s₂, h₄⟩ := statements inBlock s₁.toStatement
      ⟨more, s₂, by omega⟩
termination_by 2 * s.left + 1

end

end ScriptFold.Grammar
