import ScriptFold.Grammar.Cursor

/-!
Expressions from tokens.

The levels, from loose to tight: comma, assignment and conditional, the infix operators 1 to 11,
operators before their operand, and the links of member accesses and calls. Where no expression
can be read an invalid node stands. A node gets its identity when it is complete, after its
children.
-/

namespace ScriptFold.Grammar

open Cursor

/-! ## Operators of tokens -/

/-- An operator between two operands. -/
inductive Connective
  | binary (op : BinaryOp)
  | logical (op : LogicalOp)
deriving DecidableEq, Repr

def Connective.apply (c : Connective) (node : Node) (left right : Expr) : Expr :=
  match c with
  | binary op => .binary node op left right
  | logical op => .logical node op left right

/-- The level of the power operator, the only one that groups to the right. -/
def powerLevel : Nat := 11

/-- The level and the operator of a mark. A higher level binds tighter. -/
def connective? : TokenKind → Option (Nat × Connective)
  | .mark .questionQuestion => some (1, .logical .nullish)
  | .mark .orOr => some (1, .logical .or)
  | .mark .andAnd => some (2, .logical .and)
  | .mark .pipe => some (3, .binary .bitOr)
  | .mark .caret => some (4, .binary .bitXor)
  | .mark .amp => some (5, .binary .bitAnd)
  | .mark .eqEq => some (6, .binary .looseEq)
  | .mark .bangEq => some (6, .binary .looseNe)
  | .mark .eqEqEq => some (6, .binary .strictEq)
  | .mark .bangEqEq => some (6, .binary .strictNe)
  | .mark .lt => some (7, .binary .lt)
  | .mark .ltEq => some (7, .binary .le)
  | .mark .gt => some (7, .binary .gt)
  | .mark .gtEq => some (7, .binary .ge)
  | .mark .shl => some (8, .binary .shl)
  | .mark .shr => some (8, .binary .shr)
  | .mark .ushr => some (8, .binary .ushr)
  | .mark .plus => some (9, .binary .add)
  | .mark .minus => some (9, .binary .sub)
  | .mark .star => some (10, .binary .mul)
  | .mark .slash => some (10, .binary .div)
  | .mark .percent => some (10, .binary .rem)
  | .mark .starStar => some (powerLevel, .binary .exp)
  | _ => none

/-- The operator of a mark, if its level is at least `least`. -/
def connectiveFrom? (least : Nat) (k : TokenKind) : Option (Nat × Connective) :=
  (connective? k).filter fun (level, _) => least ≤ level

/-- The least level of the right operand. -/
def rightLevel (level : Nat) : Nat := if level = powerLevel then level else level + 1

def assignOp? : TokenKind → Option AssignOp
  | .mark .eq => some .simple
  | .mark .plusEq => some .add
  | .mark .minusEq => some .sub
  | .mark .andAndEq => some .and
  | .mark .orOrEq => some .or
  | .mark .questionQuestionEq => some .nullish
  | _ => none

def unaryOp? : TokenKind → Option UnaryOp
  | .mark .bang => some .not
  | .mark .minus => some .neg
  | .mark .plus => some .plus
  | .mark .tilde => some .bitNot
  | .keyword .voidWord => some .void
  | .keyword .typeofWord => some .typeof
  | _ => none

def atom? : TokenKind → Option (Node → Expr)
  | .number x => some fun n => .number n x
  | .string s => some fun n => .string n s
  | .keyword .trueWord => some fun n => .bool n true
  | .keyword .falseWord => some fun n => .bool n false
  | .keyword .nullWord => some Expr.null
  | k => k.binding?.map fun name n => .ident n name

/-- Tokens that an enclosing construct reads; no expression starts with them. -/
def isBoundary : TokenKind → Bool
  | .mark .rparen | .mark .rbracket | .mark .rbrace | .mark .semicolon | .mark .comma
  | .mark .colon | .eof => true
  | _ => false

/-- What goes on a chain of links. -/
inductive Link
  | dot
  | optional
  | index
  | call
deriving DecidableEq, Repr

def link? : TokenKind → Option Link
  | .mark .dot => some .dot
  | .mark .questionDot => some .optional
  | .mark .lbracket => some .index
  | .mark .lparen => some .call
  | _ => none

/-- The key of a property that is not computed, and whether it may also stand for its value. -/
def plainKey? : TokenKind → Option ((Node → Expr) × Option String)
  | .string s => some (fun n => .string n s, none)
  | .number x => some (fun n => .number n x, none)
  | k => k.name?.map fun name => (fun n => .ident n name, k.binding?)

/-! ## Reading -/

def finish {s : Cursor} (t : Cursor) (h : t.left ≤ s.left) (span : Span) (make : Node → Expr) :
    Parsed Expr s :=
  ⟨make (t.node span).1, (t.node span).2, h⟩

/-- The name after a dot. Keywords are names there. -/
def memberName (s : Cursor) : Parsed Expr s :=
  match s.take TokenKind.name? with
  | some (name, span, ⟨t, h⟩) => finish t (left_le_of_lt h) span fun n => .ident n name
  | none =>
    finish (s := s) (s.complain .expectedMemberName) (Nat.le_refl _) s.span .invalid

/-- There is no expression. The token that stands instead is taken, unless an enclosing construct
reads it. -/
def noExpression (s : Cursor) : Parsed Expr s :=
  let t := s.complain (.expectedExpression s.kind)
  if isBoundary s.kind then finish (s := s) t (Nat.le_refl _) s.span .invalid
  else finish (s := s) t.advance (t.left_advance ▸ Nat.sub_le s.left 1) s.span .invalid

def checkTarget (target : Expr) (s : Cursor) : Cursor :=
  if target.isAssignable then s else s.report (Complaint.invalidTarget.diagnostic target.span)

@[simp] theorem left_checkTarget (target : Expr) (s : Cursor) :
    (checkTarget target s).left = s.left := by
  unfold checkTarget
  split <;> rfl

mutual

def expression (s : Cursor) : Parsed Expr s :=
  let ⟨first, s₁, h₁⟩ := assignment s
  if s₁.isAt .comma then
    let ⟨more, s₂, h₂⟩ := commaOperands s₁
    finish s₂ (by omega) (first.span.cover s₂.last) fun n => .sequence n (first :: more)
  else ⟨first, s₁, h₁⟩
termination_by 16 * s.left + 8

def commaOperands (s : Cursor) : Parsed (List Expr) s :=
  match s.eat .comma with
  | none => ⟨[], s, left_le_self s⟩
  | some ⟨s₁, h₁⟩ =>
    let ⟨e, s₂, h₂⟩ := assignment s₁
    let ⟨more, s₃, h₃⟩ := commaOperands s₂
    ⟨e :: more, s₃, left_le_of_lt_of_le_of_le h₁ h₂ h₃⟩
termination_by 16 * s.left

/-- An assignment, which groups to the right, or anything tighter. -/
def assignment (s : Cursor) : Parsed Expr s :=
  let ⟨target, s₁, h₁⟩ := conditional s
  match s₁.take assignOp? with
  | none => ⟨target, s₁, h₁⟩
  | some (op, _, ⟨s₂, h₂⟩) =>
    have hs := left_checkTarget target s₂
    let ⟨value, s₃, h₃⟩ := assignment (checkTarget target s₂)
    finish s₃ (by omega) (target.span.cover value.span) fun n => .assign n op target value
termination_by 16 * s.left + 7

def conditional (s : Cursor) : Parsed Expr s :=
  let ⟨test, s₁, h₁⟩ := infixLevel 1 s
  match s₁.eat .question with
  | none => ⟨test, s₁, h₁⟩
  | some ⟨s₂, h₂⟩ =>
    let ⟨consequent, s₃, h₃⟩ := assignment s₂
    let ⟨_, s₄, h₄⟩ := s₃.expect (.mark .colon)
    let ⟨alternate, s₅, h₅⟩ := assignment s₄
    finish s₅ (by omega) (test.span.cover alternate.span) fun n =>
      .conditional n test consequent alternate
termination_by 16 * s.left + 6

/-- Operands joined by operators of at least a given level. -/
def infixLevel (least : Nat) (s : Cursor) : Parsed Expr s :=
  let ⟨left, s₁, h₁⟩ := unary s
  let ⟨e, s₂, h₂⟩ := infixTail least left s₁
  ⟨e, s₂, by omega⟩
termination_by 16 * s.left + 5

def infixTail (least : Nat) (left : Expr) (s : Cursor) : Parsed Expr s :=
  match s.take (connectiveFrom? least) with
  | none => ⟨left, s, Nat.le_refl _⟩
  | some ((level, op), _, ⟨s₁, h₁⟩) =>
    let ⟨right, s₂, h₂⟩ := infixLevel (rightLevel level) s₁
    let span := left.span.cover right.span
    let ⟨e, s₃, h₃⟩ :=
      infixTail least (op.apply (s₂.node span).1 left right) (s₂.node span).2
    ⟨e, s₃, by simp only [left_node] at h₃; omega⟩
termination_by 16 * s.left
decreasing_by all_goals try rw [left_node]
              all_goals omega

def unary (s : Cursor) : Parsed Expr s :=
  match s.take unaryOp? with
  | none => let ⟨e, s₁, h₁⟩ := primary s; (links e false s₁).weaken h₁
  | some (op, span, ⟨s₁, h₁⟩) =>
    let ⟨argument, s₂, h₂⟩ := unary s₁
    finish s₂ (by omega) (span.cover argument.span) fun n => .unary n op argument
termination_by 16 * s.left + 4

/-- Member accesses and calls after an expression. After the first optional link of a chain all
links are optional. -/
def links (e : Expr) (chained : Bool) (s : Cursor) : Parsed Expr s :=
  match s.take link? with
  | none => ⟨e, s, Nat.le_refl _⟩
  | some (link, span, ⟨s₁, h₁⟩) =>
    let chained := chained || link = .optional
    let ⟨make, s₂, h₂⟩ : Parsed (Node → Expr) s₁ :=
      match link with
      | .dot => (memberName s₁).map fun p n => .member n e p false chained
      | .index => (computedKey span s₁).map fun p n => .member n e p true chained
      | .call => (arguments span s₁).map fun xs n => .call n e xs chained
      | .optional =>
        match s₁.take link? with
        | some (.index, span, ⟨s₂, h₂⟩) =>
          ((computedKey span s₂).map fun p n => Expr.member n e p true true).weaken
            (Nat.le_of_lt h₂)
        | some (.call, span, ⟨s₂, h₂⟩) =>
          ((arguments span s₂).map fun xs n => Expr.call n e xs true).weaken (Nat.le_of_lt h₂)
        | _ => (memberName s₁).map fun p n => .member n e p false true
    let span := e.span.cover s₂.last
    let ⟨last, s₃, h₃⟩ := links (make (s₂.node span).1) chained (s₂.node span).2
    ⟨last, s₃, by simp only [left_node] at h₃; omega⟩
termination_by 16 * s.left
decreasing_by all_goals try rw [left_node]
              all_goals omega

def computedKey (opened : Span) (s : Cursor) : Parsed Expr s :=
  let ⟨key, s₁, h₁⟩ := expression s
  let ⟨_, s₂, h₂⟩ := s₁.closing .bracket opened
  ⟨key, s₂, by omega⟩
termination_by 16 * s.left + 9

def arguments (opened : Span) (s : Cursor) : Parsed (List Expr) s :=
  let ⟨items, s₁, h₁⟩ :=
    s.commaList .rparen s.left (fun t _ => (element t).map some) (Nat.le_refl _)
  let ⟨_, s₂, h₂⟩ := s₁.closing .paren opened
  ⟨items, s₂, by omega⟩
termination_by 16 * s.left + 9

def element (s : Cursor) : Parsed Expr s :=
  match s.take fun k => if k = .mark .ellipsis then some () else none with
  | none => assignment s
  | some (_, span, ⟨s₁, h₁⟩) =>
    let ⟨argument, s₂, h₂⟩ := assignment s₁
    finish s₂ (by omega) (span.cover argument.span) fun n => .spread n argument
termination_by 16 * s.left + 8

def primary (s : Cursor) : Parsed Expr s :=
  match s.take atom? with
  | some (make, span, ⟨s₁, h₁⟩) => finish s₁ (Nat.le_of_lt h₁) span make
  | none =>
    match s.eat .lparen, s.eat .lbracket, s.eat .lbrace with
    | some ⟨s₁, h₁⟩, _, _ =>
      let ⟨inner, s₂, h₂⟩ := expression s₁
      let ⟨_, s₃, h₃⟩ := s₂.closing .paren s.span
      ⟨inner, s₃, by omega⟩
    | _, some ⟨s₁, h₁⟩, _ =>
      let ⟨items, s₂, h₂⟩ := elements s₁
      let ⟨_, s₃, h₃⟩ := s₂.closing .bracket s.span
      finish s₃ (by omega) (s.span.cover s₃.last) fun n => .array n items
    | _, _, some ⟨s₁, h₁⟩ =>
      let ⟨members, s₂, h₂⟩ :=
        s₁.commaList .rbrace s₁.left (fun t _ => objectMember t) (Nat.le_refl _)
      let ⟨_, s₃, h₃⟩ := s₂.closing .brace s.span
      finish s₃ (by omega) (s.span.cover s₃.last) fun n => .object n members
    | _, _, _ => noExpression s
termination_by 16 * s.left + 3

/-- The elements of an array. A comma without an element before it is a hole. -/
def elements (s : Cursor) : Parsed (List (Option Expr)) s :=
  if s.isAt .rbracket ∨ s.atEnd then ⟨[], s, left_le_self s⟩
  else
    match s.eat .comma with
    | some ⟨s₁, h₁⟩ =>
      let ⟨more, s₂, h₂⟩ := elements s₁
      ⟨none :: more, s₂, left_le_of_lt_of_le h₁ h₂⟩
    | none =>
      let ⟨e, s₁, h₁⟩ := element s
      match s₁.eat .comma with
      | none => ⟨[some e], s₁, h₁⟩
      | some ⟨s₂, h₂⟩ =>
        let ⟨more, s₃, h₃⟩ := elements s₂
        ⟨some e :: more, s₃, left_le_of_le_of_lt_of_le h₁ h₂ h₃⟩
termination_by 16 * s.left + 9

/-- A property or a spread. A name without a value stands for the variable of that name. -/
def objectMember (s : Cursor) : Parsed (Option Expr) s :=
  match s.take fun k => if k = .mark .ellipsis then some () else none with
  | some (_, span, ⟨s₁, h₁⟩) =>
    let ⟨argument, s₂, h₂⟩ := assignment s₁
    (finish s₂ (by omega) (span.cover argument.span) fun n => .spread n argument).map some
  | none =>
    match s.take plainKey? with
    | some ((make, short), span, ⟨s₁, h₁⟩) =>
      (propertyValue s.span (make (s₁.node span).1) false short (s₁.node span).2).weaken
        (Nat.le_of_lt h₁ : (s₁.node span).2.left ≤ s.left)
    | none =>
      match s.eat .lbracket with
      | some ⟨s₁, h₁⟩ =>
        let ⟨key, s₂, h₂⟩ := computedKey s.span s₁
        (propertyValue s.span key true none s₂).weaken (by omega)
      | none => ⟨none, s.complain (.expectedPropertyName s.kind), Nat.le_refl _⟩
termination_by 16 * s.left + 9
decreasing_by all_goals try rw [left_node]
              all_goals omega

def propertyValue (start : Span) (key : Expr) (computed : Bool) (short : Option String)
    (s : Cursor) : Parsed (Option Expr) s :=
  match s.eat .colon with
  | some ⟨s₁, h₁⟩ =>
    let ⟨value, s₂, h₂⟩ := assignment s₁
    (finish s₂ (by omega) (start.cover s₂.last) fun n =>
      .property n key value computed false).map some
  | none =>
    match short with
    | some name =>
      let value := Expr.ident (s.node key.span).1 name
      (finish (s := s) (s.node key.span).2 (Nat.le_refl _) (start.cover s.last) fun n =>
        .property n key value computed true).map some
    | none => ⟨none, s.complain .missingColon, Nat.le_refl _⟩
termination_by 16 * s.left + 9

end

end ScriptFold.Grammar
