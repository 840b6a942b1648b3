import ScriptFold.Grammar.Statement
import ScriptFold.Lexeme

/-!
Programs and expressions from source texts.

Reading never fails: what is wrong is in the diagnostics, those of tokens before those of the
grammar.
-/

namespace ScriptFold

/-- What a source text holds, what is wrong with it, and the first identity that is still free. -/
structure Sourced (α : Type) where
  value : α
  diagnostics : List Diagnostic
  nextId : NodeId

namespace Grammar

def program (s : Cursor) : Parsed Program s :=
  let ⟨body, t, h⟩ := statements false s
  ⟨⟨body, s.span.cover t.last⟩, t, h⟩

/-- The expression that all tokens make up, which a semicolon may end. -/
def wholeExpression (s : Cursor) : Parsed Expr s :=
  let ⟨e, s₁, h₁⟩ := expression s
  have h₂ := Cursor.left_eatSemicolon_le s₁
  let t := s₁.eatSemicolon
  if t.atEnd then ⟨e, t, Nat.le_trans h₂ h₁⟩
  else ⟨e, t.complain (.expectedEnd t.kind), Nat.le_trans h₂ h₁⟩

/-- Reads the tokens of a source text, numbering nodes from a first identity. -/
def read {α : Type} (parse : (s : Cursor) → Parsed α s) (source : String) (firstId : NodeId) :
    Sourced α :=
  let lexed := tokenize source
  let p := parse (.ofTokens lexed.tokens firstId)
  ⟨p.value, lexed.diagnostics ++ p.next.diagnostics, p.next.nextId⟩

end Grammar

def parseProgram (source : String) : Sourced Program := Grammar.read Grammar.program source 0

def parseExpression (source : String) (firstId : NodeId) : Sourced Expr :=
  Grammar.read Grammar.wholeExpression source firstId

end ScriptFold
