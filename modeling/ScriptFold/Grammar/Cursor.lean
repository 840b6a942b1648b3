import ScriptFold.Diagnostic
import ScriptFold.Program
import ScriptFold.Token

/-!
Reading tokens one after another.

A cursor holds the tokens that are still to be read, without the end, the identity for the next
node, and the diagnostics so far. Reading never gives tokens back: a `Parsed` result carries the
proof that no more tokens are left than before.
-/

namespace ScriptFold

/-! ## Complaints -/

inductive Delimiter
  | paren
  | bracket
  | brace
deriving DecidableEq, Repr

namespace Delimiter

def opening : Delimiter → Mark
  | paren => .lparen
  | bracket => .lbracket
  | brace => .lbrace

def closing : Delimiter → Mark
  | paren => .rparen
  | bracket => .rbracket
  | brace => .rbrace

end Delimiter

inductive Complaint
  | unexpectedBrace
  | expectedToken (wanted found : TokenKind)
  | expectedIdentifier (found : TokenKind)
  | expectedPropertyName (found : TokenKind)
  | expectedEnd (found : TokenKind)
  | missingColon
  | missingInitializer
  | expectedExpression (found : TokenKind)
  | expectedMemberName
  | invalidTarget
  | missingAs
  | expectedSpecifiers
  | expectedImportedName
  | mustBeRenamed (name : String)
  | expectedModule
deriving DecidableEq, Repr

namespace Complaint

def code : Complaint → Code
  | unexpectedBrace | expectedToken _ _ | expectedIdentifier _ | expectedPropertyName _
  | expectedEnd _ | missingColon | missingInitializer => .unexpectedToken
  | expectedExpression _ | expectedMemberName => .expectedExpression
  | invalidTarget => .invalidAssignmentTarget
  | missingAs | expectedSpecifiers | expectedImportedName | mustBeRenamed _ | expectedModule =>
    .invalidImport

def message : Complaint → String
  | unexpectedBrace => "unexpected `\x7d`"
  | expectedToken wanted found => s!"expected {wanted.describe}, found {found.describe}"
  | expectedIdentifier found => s!"expected identifier, found {found.describe}"
  | expectedPropertyName found => s!"expected property name, found {found.describe}"
  | expectedEnd found => s!"expected end of input, found {found.describe}"
  | missingColon => "expected `:` after property name"
  | missingInitializer => "missing initializer in const declaration"
  | expectedExpression found => s!"expected an expression, found {found.describe}"
  | expectedMemberName => "expected property name"
  | invalidTarget => "invalid assignment target"
  | missingAs => "expected `as` after `*`"
  | expectedSpecifiers => "expected import specifiers"
  | expectedImportedName => "expected an imported name"
  | mustBeRenamed name => s!"`{name}` must be renamed with `as`"
  | expectedModule => "expected a module specifier string"

def label : Complaint → String
  | invalidTarget => "cannot assign to this"
  | _ => "here"

def diagnostic (span : Span) (c : Complaint) : Diagnostic :=
  ((Diagnostic.plain .error .grammar span c.message).withCode c.code).withLabel span c.label

def unclosed (d : Delimiter) (opened span : Span) (found : TokenKind) : Diagnostic :=
  let message := s!"expected `{d.closing.spelling}`, found {found.describe}"
  (((Diagnostic.plain .error .grammar span message).withCode .unclosedDelimiter).withLabel
    opened "unclosed delimiter opened here").withLabel span "here"

end Complaint

/-! ## Cursors -/

/-- A place between tokens. -/
structure Cursor where
  /-- The tokens still to be read, without the end. -/
  rest : List Token
  /-- The span of the end. -/
  finish : Span
  /-- The span of the token read last. -/
  last : Span
  nextId : NodeId
  diagnostics : List Diagnostic

namespace Cursor

/-- The start of some tokens, up to the first end among them. -/
def ofTokens (tokens : List Token) (firstId : NodeId) : Cursor :=
  let rest := tokens.takeWhile (·.kind ≠ .eof)
  let finish := ((tokens.drop rest.length).head?.map Token.span).getD .nowhere
  ⟨rest, finish, .nowhere, firstId, []⟩

def left (s : Cursor) : Nat := s.rest.length

def atEnd (s : Cursor) : Bool := s.rest.isEmpty

def kind (s : Cursor) : TokenKind :=
  match s.rest with
  | [] => .eof
  | t :: _ => t.kind

def span (s : Cursor) : Span :=
  match s.rest with
  | [] => s.finish
  | t :: _ => t.span

def advance (s : Cursor) : Cursor :=
  match s.rest with
  | [] => s
  | t :: rest => { s with rest := rest, last := t.span }

def skip : Nat → Cursor → Cursor
  | 0, s => s
  | n + 1, s => s.advance.skip n

def isAt (m : Mark) (s : Cursor) : Bool := s.kind = .mark m

def report (d : Diagnostic) (s : Cursor) : Cursor :=
  { s with diagnostics := s.diagnostics ++ [d] }

def complain (c : Complaint) (s : Cursor) : Cursor := s.report (c.diagnostic s.span)

/-- The node for a span, and the cursor that does not give its identity again. -/
def node (span : Span) (s : Cursor) : Node × Cursor :=
  (⟨s.nextId, span⟩, { s with nextId := s.nextId + 1 })

/-- Moves over the next token if a test accepts it. -/
def take {β : Type} (test : TokenKind → Option β) (s : Cursor) :
    Option (β × Span × { t : Cursor // t.left < s.left }) :=
  match h : s.rest with
  | [] => none
  | t :: rest =>
    (test t.kind).map fun b => (b, t.span, ⟨{ s with rest := rest, last := t.span }, by
      simp only [left, h, List.length_cons]
      omega⟩)

def eat (m : Mark) (s : Cursor) : Option { t : Cursor // t.left < s.left } :=
  (s.take fun k => if k = .mark m then some () else none).map fun (_, _, t) => t

def eatWord (k : Keyword) (s : Cursor) : Option { t : Cursor // t.left < s.left } :=
  (s.take fun k' => if k' = .keyword k then some () else none).map fun (_, _, t) => t

/-- Moves over a semicolon, which may be missing. -/
def eatSemicolon (s : Cursor) : Cursor :=
  match s.eat .semicolon with
  | some ⟨t, _⟩ => t
  | none => s

@[simp] theorem left_node (span : Span) (s : Cursor) : (s.node span).2.left = s.left := rfl

theorem left_advance (s : Cursor) : s.advance.left = s.left - 1 := by
  unfold advance left
  split <;> simp_all

theorem left_skip (n : Nat) (s : Cursor) : (s.skip n).left = s.left - n := by
  induction n generalizing s with
  | zero => simp [skip]
  | succ n ih =>
    rw [skip, ih, left_advance]
    omega

theorem left_eatSemicolon_le (s : Cursor) : s.eatSemicolon.left ≤ s.left := by
  unfold eatSemicolon
  split
  · rename_i t ht _
    exact Nat.le_of_lt ht
  · exact Nat.le_refl _

/-! ### Several steps -/

section Steps

variable {s t u v : Cursor}

theorem left_le_self (s : Cursor) : s.left ≤ s.left := Nat.le_refl _

theorem left_le_of_lt (h : t.left < s.left) : t.left ≤ s.left := Nat.le_of_lt h

theorem left_le_of_lt_of_le (h₁ : t.left < s.left) (h₂ : u.left ≤ t.left) : u.left ≤ s.left := by
  omega

theorem left_le_of_lt_of_lt (h₁ : t.left < s.left) (h₂ : u.left < t.left) : u.left ≤ s.left := by
  omega

theorem left_le_of_lt_of_le_of_le (h₁ : t.left < s.left) (h₂ : u.left ≤ t.left)
    (h₃ : v.left ≤ u.left) : v.left ≤ s.left := by
  omega

theorem left_le_of_lt_of_lt_of_le (h₁ : t.left < s.left) (h₂ : u.left < t.left)
    (h₃ : v.left ≤ u.left) : v.left ≤ s.left := by
  omega

theorem left_le_of_le_of_lt_of_le (h₁ : t.left ≤ s.left) (h₂ : u.left < t.left)
    (h₃ : v.left ≤ u.left) : v.left ≤ s.left := by
  omega

theorem left_eatSemicolon_lt (h : t.left < s.left) : t.eatSemicolon.left < s.left :=
  Nat.lt_of_le_of_lt (left_eatSemicolon_le t) h

theorem left_eatSemicolon_le_of_lt (h : t.left < s.left) : t.eatSemicolon.left ≤ s.left :=
  Nat.le_of_lt (left_eatSemicolon_lt h)

theorem left_eatSemicolon_le_of_le_of_lt (h₁ : t.left ≤ s.left) (h₂ : u.left < t.left) :
    u.eatSemicolon.left ≤ s.left :=
  Nat.le_trans (left_eatSemicolon_le_of_lt h₂) h₁

end Steps

/-! ## Recovery -/

/-- How many tokens stand before the closing of a bracket that `depth` brackets are open in. A
semicolon outside all of them ends the search. -/
def runToClosing (d : Delimiter) : Nat → List Token → Nat
  | _, [] => 0
  | depth, t :: rest =>
    if t.kind = .mark d.opening then runToClosing d (depth + 1) rest + 1
    else if t.kind = .mark d.closing then
      if depth = 0 then 0 else runToClosing d (depth - 1) rest + 1
    else if depth = 0 ∧ t.kind = .mark .semicolon then 0
    else runToClosing d depth rest + 1

/-- How many tokens stand before a comma or a given closing mark. -/
def runToComma (closing : Mark) (tokens : List Token) : Nat :=
  (tokens.takeWhile fun t => t.kind ≠ .mark .comma ∧ t.kind ≠ .mark closing).length

/-- A token that a new statement starts with. -/
def startsStatement : TokenKind → Bool
  | .keyword .importWord | .keyword .constWord | .keyword .letWord | .keyword .varWord => true
  | _ => false

/-- How many tokens stand before the next statement. At least one is skipped. The search stops
after a semicolon or closing brace, and before a closing brace or the start of a declaration. -/
def runToStatement : List Token → Nat
  | [] => 0
  | t :: rest =>
    let stops := t.kind = .mark .semicolon ∨ t.kind = .mark .rbrace ∨
      rest.head?.any fun next => next.kind = .mark .rbrace || startsStatement next.kind
    if stops then 1 else runToStatement rest + 1

def toStatement (s : Cursor) : Cursor := s.skip (runToStatement s.rest)

theorem runToStatement_pos {tokens : List Token} (h : tokens ≠ []) : 0 < runToStatement tokens := by
  cases tokens with
  | nil => exact absurd rfl h
  | cons t rest =>
    simp only [runToStatement]
    split <;> omega

theorem left_toStatement_le (s : Cursor) : s.toStatement.left ≤ s.left := by
  rw [toStatement, left_skip]
  omega

/-- Recovery moves on, unless the end is reached. -/
theorem left_toStatement_lt {s : Cursor} {n : Nat} (h : s.left ≤ n) (hn : 0 < n) :
    s.toStatement.left < n := by
  rw [toStatement, left_skip]
  by_cases hs : s.rest = []
  · simp only [left, hs, List.length_nil]
    omega
  · have h₁ := runToStatement_pos hs
    have h₂ : 0 < s.left := List.length_pos_iff.2 hs
    omega

end Cursor

/-! ## Results -/

/-- What was read from a cursor on, and where reading goes on. -/
structure Parsed (α : Type) (s : Cursor) where
  value : α
  next : Cursor
  le : next.left ≤ s.left

namespace Parsed

variable {α β : Type} {s t : Cursor}

def weaken (h : t.left ≤ s.left) (p : Parsed α t) : Parsed α s :=
  ⟨p.value, p.next, Nat.le_trans p.le h⟩

def map (f : α → β) (p : Parsed α s) : Parsed β s := ⟨f p.value, p.next, p.le⟩

end Parsed

namespace Cursor

/-- Expects the closing of a bracket. If it is missing, the bracket is reported and reading goes on
after its closing, where there is one. The result tells whether it was closed. -/
def closing (d : Delimiter) (opened : Span) (s : Cursor) : Parsed Bool s :=
  match s.eat d.closing with
  | some ⟨t, h⟩ => ⟨true, t, Nat.le_of_lt h⟩
  | none =>
    let s₁ := (s.report (Complaint.unclosed d opened s.span s.kind)).skip (runToClosing d 0 s.rest)
    have h₁ : s₁.left ≤ s.left := by
      rw [left_skip]
      exact Nat.sub_le s.left _
    match s₁.eat d.closing with
    | some ⟨t, h⟩ => ⟨true, t, Nat.le_trans (Nat.le_of_lt h) h₁⟩
    | none => ⟨false, s₁, h₁⟩

def expect (wanted : TokenKind) (s : Cursor) : Parsed Bool s :=
  match s.take fun k => if k = wanted then some () else none with
  | some (_, _, ⟨t, h⟩) => ⟨true, t, Nat.le_of_lt h⟩
  | none => ⟨false, s.complain (.expectedToken wanted s.kind), Nat.le_refl _⟩

def binding (s : Cursor) : Option (Name × { t : Cursor // t.left < s.left }) :=
  (s.take TokenKind.binding?).map fun (name, span, t) => (⟨name, span⟩, t)

def expectBinding (s : Cursor) : Parsed (Option Name) s :=
  match s.binding with
  | some (name, ⟨t, h⟩) => ⟨some name, t, Nat.le_of_lt h⟩
  | none => ⟨none, s.complain (.expectedIdentifier s.kind), Nat.le_refl _⟩

/-- Items between commas, up to a closing mark. An item that cannot be read is left out, and
reading goes on at the next comma or closing mark. A comma may stand at the end. -/
def commaList {α : Type} (closing : Mark) (n : Nat)
    (item : (t : Cursor) → t.left ≤ n → Parsed (Option α) t) (s : Cursor) (hs : s.left ≤ n) :
    Parsed (List α) s :=
  if s.isAt closing ∨ s.atEnd then ⟨[], s, Nat.le_refl _⟩
  else
    let ⟨found, s₁, h₁⟩ := item s hs
    let s₂ := if found.isSome then s₁ else s₁.skip (runToComma closing s₁.rest)
    have h₂ : s₂.left ≤ s.left := by
      simp only [s₂]
      split
      · exact h₁
      · rw [left_skip]
        omega
    match s₂.eat .comma with
    | none => ⟨found.toList, s₂, h₂⟩
    | some ⟨s₃, h₃⟩ =>
      let ⟨more, s₄, h₄⟩ := commaList closing n item s₃ (by omega)
      ⟨found.toList ++ more, s₄, by omega⟩
termination_by s.left
decreasing_by omega

end Cursor

end ScriptFold
