import ScriptFold.Span

/-!
Tokens of a source text: words, marks, literals, and the end.

Every keyword and every mark has one spelling. The words `from` and `as` are keywords that may
also be names.
-/

namespace ScriptFold

inductive Keyword
  | importWord
  | fromWord
  | asWord
  | constWord
  | letWord
  | varWord
  | trueWord
  | falseWord
  | nullWord
  | voidWord
  | typeofWord
deriving DecidableEq, Repr

namespace Keyword

def all : List Keyword := [importWord, fromWord, asWord, constWord, letWord, varWord, trueWord,
  falseWord, nullWord, voidWord, typeofWord]

def spelling : Keyword → String
  | importWord => "import"
  | fromWord => "from"
  | asWord => "as"
  | constWord => "const"
  | letWord => "let"
  | varWord => "var"
  | trueWord => "true"
  | falseWord => "false"
  | nullWord => "null"
  | voidWord => "void"
  | typeofWord => "typeof"

def ofSpelling? (word : String) : Option Keyword := all.find? (·.spelling = word)

def isContextual : Keyword → Bool
  | fromWord | asWord => true
  | _ => false

end Keyword

inductive Mark
  | lparen
  | rparen
  | lbracket
  | rbracket
  | lbrace
  | rbrace
  | plus
  | minus
  | star
  | starStar
  | slash
  | percent
  | amp
  | pipe
  | caret
  | tilde
  | shl
  | shr
  | ushr
  | eqEq
  | bangEq
  | eqEqEq
  | bangEqEq
  | lt
  | ltEq
  | gt
  | gtEq
  | andAnd
  | orOr
  | bang
  | questionQuestion
  | eq
  | plusEq
  | minusEq
  | andAndEq
  | orOrEq
  | questionQuestionEq
  | question
  | questionDot
  | colon
  | comma
  | semicolon
  | dot
  | ellipsis
deriving DecidableEq, Repr

namespace Mark

def spelling : Mark → String
  | lparen => "("
  | rparen => ")"
  | lbracket => "["
  | rbracket => "]"
  | lbrace => "\x7b"
  | rbrace => "\x7d"
  | plus => "+"
  | minus => "-"
  | star => "*"
  | starStar => "**"
  | slash => "/"
  | percent => "%"
  | amp => "&"
  | pipe => "|"
  | caret => "^"
  | tilde => "~"
  | shl => "<<"
  | shr => ">>"
  | ushr => ">>>"
  | eqEq => "=="
  | bangEq => "!="
  | eqEqEq => "==="
  | bangEqEq => "!=="
  | lt => "<"
  | ltEq => "<="
  | gt => ">"
  | gtEq => ">="
  | andAnd => "&&"
  | orOr => "||"
  | bang => "!"
  | questionQuestion => "??"
  | eq => "="
  | plusEq => "+="
  | minusEq => "-="
  | andAndEq => "&&="
  | orOrEq => "||="
  | questionQuestionEq => "??="
  | question => "?"
  | questionDot => "?."
  | colon => ":"
  | comma => ","
  | semicolon => ";"
  | dot => "."
  | ellipsis => "..."

/-- All marks, longer spellings before their beginnings. -/
def longestFirst : List Mark := [
  ellipsis, eqEqEq, bangEqEq, ushr, andAndEq, orOrEq, questionQuestionEq,
  starStar, eqEq, bangEq, ltEq, gtEq, shl, shr, andAnd, orOr, questionQuestion, questionDot,
  plusEq, minusEq,
  lparen, rparen, lbracket, rbracket, lbrace, rbrace, plus, minus, star, slash, percent, amp, pipe,
  caret, tilde, lt, gt, bang, eq, question, colon, comma, semicolon, dot]

end Mark

inductive TokenKind
  | number (value : Float)
  | string (value : String)
  | ident (name : String)
  | keyword (word : Keyword)
  | mark (mark : Mark)
  /-- The end of the text. -/
  | eof
  /-- Text that is no token. -/
  | error
deriving DecidableEq, Repr

namespace TokenKind

/-- How messages name the token. -/
def describe : TokenKind → String
  | number _ => "number"
  | string _ => "string"
  | ident name => s!"`{name}`"
  | keyword word => s!"`{word.spelling}`"
  | mark m => s!"`{m.spelling}`"
  | eof => "end of input"
  | error => "invalid token"

def isKeyword : TokenKind → Bool
  | keyword _ => true
  | _ => false

def ofWord (word : String) : TokenKind :=
  match Keyword.ofSpelling? word with
  | some k => keyword k
  | none => ident word

theorem ofWord_ne_eof (word : String) : ofWord word ≠ eof := by
  unfold ofWord
  split <;> simp

/-- The name that the token is after a dot, or as the key of a property. -/
def name? : TokenKind → Option String
  | ident name => some name
  | keyword word => some word.spelling
  | _ => none

/-- The name that the token is as a variable. -/
def binding? : TokenKind → Option String
  | ident name => some name
  | keyword word => if word.isContextual then some word.spelling else none
  | _ => none

end TokenKind

structure Token where
  kind : TokenKind
  span : Span
deriving DecidableEq, Repr

def Token.shift (n : Nat) (t : Token) : Token := { t with span := t.span.shift n }

end ScriptFold
