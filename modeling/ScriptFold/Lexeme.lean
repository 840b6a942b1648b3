import ScriptFold.Diagnostic
import ScriptFold.Number.Decimal
import ScriptFold.Text.Blank
import ScriptFold.Text.Letters
import ScriptFold.Token

/-!
Lexemes: the pieces of a source text.

Each piece is a run of blanks, a comment, or the text of one token. What a piece is depends on
the text from its first character on; its faults are placed from there. The pieces of a text,
joined, are the text, so that the places of tokens are sums of lengths.
-/

namespace ScriptFold

/-! ## Faults -/

inductive LexicalFault
  | unexpectedCharacter (c : Char)
  | unterminatedString
  | unterminatedComment
  | octalEscape
  | hexadecimalEscape
  | unicodeEscape
  | identifierAfterNumber
  | invalidDigit
deriving DecidableEq, Repr

namespace LexicalFault

def code : LexicalFault → Code
  | unexpectedCharacter _ => .unexpectedCharacter
  | unterminatedString => .unterminatedString
  | unterminatedComment => .unterminatedComment
  | octalEscape | hexadecimalEscape | unicodeEscape => .invalidEscape
  | identifierAfterNumber | invalidDigit => .invalidNumber

def message : LexicalFault → String
  | unexpectedCharacter c => s!"unexpected character: '{c}'"
  | unterminatedString => "unterminated string"
  | unterminatedComment => "unterminated block comment"
  | octalEscape => "octal escape sequences are not allowed"
  | hexadecimalEscape => "malformed hexadecimal escape"
  | unicodeEscape => "malformed unicode escape"
  | identifierAfterNumber => "identifier starts immediately after number"
  | invalidDigit => "invalid digit in number literal"

def label? : LexicalFault → Option String
  | unexpectedCharacter _ => some "unexpected character here"
  | unterminatedString => some "string starts here"
  | _ => none

def diagnostic (span : Span) (f : LexicalFault) : Diagnostic :=
  let d := (Diagnostic.plain .error .tokens span f.message).withCode f.code
  match f.label? with
  | some label => d.withLabel span label
  | none => d

end LexicalFault

/-- What a piece of text is, from its first character on. -/
structure Scan where
  /-- The token; blanks and comments are none. -/
  kind : Option TokenKind
  /-- How many characters belong to it after the first. -/
  more : Nat
  /-- Its faults, in bytes from its start. -/
  faults : List Diagnostic

def Scan.fault (text : List Char) (more : Nat) (f : LexicalFault) : Scan :=
  ⟨some .error, more, [f.diagnostic ⟨0, byteLength (text.take (more + 1))⟩]⟩

/-! ## Comments -/

/-- How many characters a block comment takes after its opening, with its closing. -/
def blockCommentRun : List Char → Option Nat
  | [] => none
  | '*' :: '/' :: _ => some 2
  | _ :: rest => (blockCommentRun rest).map (· + 1)

/-! ## Strings -/

/-- What an escape stands for. A line continuation stands for nothing. -/
inductive Escape
  | char (c : Char)
  | nothing
  | invalid (f : LexicalFault)

def isHexDigit (c : Char) : Bool := (Number.digit? 16 c).isSome

def ofHexDigits (ds : List Char) : Nat :=
  ds.foldl (fun n d => 16 * n + (Number.digit? 16 d).getD 0) 0

/-- The character with a code, or the replacement character for half of a pair. -/
def charOfCode (n : Nat) : Char :=
  if n.isValidChar then Char.ofNat n else '\ufffd'

/-- An escape of exactly `count` hexadecimal digits, which follow one letter. -/
def fixedEscape (count : Nat) (rest : List Char) : Escape × Nat :=
  let ds := (rest.take count).takeWhile isHexDigit
  (if ds.length = count then .char (charOfCode (ofHexDigits ds)) else .invalid .hexadecimalEscape,
    ds.length + 1)

/-- An escape of any number of hexadecimal digits, after its opening brace. -/
def bracedEscape (rest : List Char) : Escape × Nat :=
  let ds := rest.takeWhile isHexDigit
  if ds = [] ∨ (rest.drop ds.length).head? ≠ some '\x7d' then
    (.invalid .unicodeEscape, ds.length + 2)
  else if ofHexDigits ds ≤ 0x10FFFF then (.char (charOfCode (ofHexDigits ds)), ds.length + 3)
  else (.invalid .unicodeEscape, ds.length + 3)

/-- What stands after a backslash, and how many characters it takes. -/
def readEscape : List Char → Escape × Nat
  | [] => (.nothing, 0)
  | '\r' :: '\n' :: _ => (.nothing, 2)
  | 'u' :: '\x7b' :: rest => bracedEscape rest
  | c :: rest =>
    if c = 'n' then (.char '\n', 1)
    else if c = 'r' then (.char '\r', 1)
    else if c = 't' then (.char '\t', 1)
    else if c = 'b' then (.char '\x08', 1)
    else if c = 'f' then (.char '\x0c', 1)
    else if c = 'v' then (.char '\x0b', 1)
    else if c = '\n' ∨ c = '\r' then (.nothing, 1)
    else if c = 'x' then fixedEscape 2 rest
    else if c = 'u' then fixedEscape 4 rest
    else if c = '0' ∧ !rest.head?.any Char.isDigit then (.char '\x00', 1)
    else if c.isDigit then (.invalid .octalEscape, 1)
    else (.char c, 1)

/-- The characters that the body of a string denotes, and the faults of its escapes. The body
stands `pos` bytes from the start of the token. -/
def readBody (pos : Nat) : List Char → List Char × List Diagnostic
  | [] => ([], [])
  | c :: rest =>
    if c = '\\' then
      let (escape, n) := readEscape rest
      let next := pos + 1 + byteLength (rest.take n)
      let (value, faults) := readBody next (rest.drop n)
      match escape with
      | .char c => (c :: value, faults)
      | .nothing => (value, faults)
      | .invalid f => (value, f.diagnostic ⟨pos, next⟩ :: faults)
    else
      let (value, faults) := readBody (pos + c.utf8Size) rest
      (c :: value, faults)
termination_by cs => cs.length
decreasing_by all_goals simp only [List.length_cons, List.length_drop]; omega

inductive BodyEnd
  | quote
  | newline
  | eof
deriving DecidableEq

/-- How many characters the body of a string has, and how it ends. A backslash takes the next
character into the body, whatever it is. -/
def bodyRun (quote : Char) : List Char → Nat × BodyEnd
  | [] => (0, .eof)
  | '\\' :: '\r' :: '\n' :: rest => let (n, stop) := bodyRun quote rest; (n + 3, stop)
  | '\\' :: _ :: rest => let (n, stop) := bodyRun quote rest; (n + 2, stop)
  | c :: rest =>
    if c = quote then (0, .quote)
    else if c = '\n' then (0, .newline)
    else let (n, stop) := bodyRun quote rest; (n + 1, stop)

def scanString (quote : Char) (cs : List Char) : Scan :=
  let (n, stop) := bodyRun quote cs
  let (value, faults) := readBody quote.utf8Size (cs.take n)
  match stop with
  | .quote =>
    ⟨some (if faults = [] then .string (String.ofList value) else .error), n + 1, faults⟩
  | _ =>
    let more := if stop = .newline then n + 1 else n
    let span : Span := ⟨0, quote.utf8Size + byteLength (cs.take more)⟩
    ⟨some .error, more, faults ++ [LexicalFault.unterminatedString.diagnostic span]⟩

/-! ## Words -/

def isNameStart (c : Char) : Bool := c = '_' || c = '$' || Text.isLetter c

def isNamePart (c : Char) : Bool := c = '_' || c = '$' || Text.isLetterOrNumber c

def scanWord (c : Char) (cs : List Char) : Scan :=
  let more := cs.takeWhile isNamePart
  ⟨some (.ofWord (String.ofList (c :: more))), more.length, []⟩

/-! ## Numbers -/

/-- How many characters of a text are digits, where an underscore may stand before a digit. -/
def digitRun : List Char → Nat
  | [] => 0
  | '_' :: d :: rest => if d.isDigit then digitRun (d :: rest) + 1 else 0
  | c :: rest => if c.isDigit then digitRun rest + 1 else 0

/-- How many characters of a text are a fraction with its point. -/
def fractionRun : List Char → Nat
  | '.' :: rest => digitRun rest + 1
  | _ => 0

/-- How many characters of a text are an exponent. It must have a digit. -/
def exponentRun : List Char → Nat
  | [] => 0
  | c :: rest =>
    let sign := if rest.head? = some '+' ∨ rest.head? = some '-' then 1 else 0
    let ds := rest.drop sign
    if (c = 'e' ∨ c = 'E') ∧ ds.head?.any Char.isDigit then digitRun ds + sign + 1 else 0

/-- How many characters of a text are digits of a radix, where underscores may stand after the
first digit. -/
def radixRun (radix : Nat) (started : Bool) : List Char → Nat
  | [] => 0
  | c :: rest =>
    if (Number.digit? radix c).isSome ∨ (c = '_' ∧ started) then radixRun radix true rest + 1
    else 0

def withoutSeparators (cs : List Char) : List Char := cs.filter (· ≠ '_')

/-- The number, unless a fault follows it: then the letters and digits after it are taken too. -/
def finishNumber (text : List Char) (more : Nat) (value : Float) (f : LexicalFault)
    (faulty : Bool) : Scan :=
  if faulty then
    let tail := (text.drop (more + 1)).takeWhile fun c => c.isAlphanum || c = '_'
    .fault text (more + tail.length) f
  else ⟨some (.number value), more, []⟩

def scanRadix (radix : Nat) (text : List Char) : Scan :=
  let ds := text.drop 2
  let n := radixRun radix false ds
  let value := Number.readRadix radix (withoutSeparators (ds.take n))
  finishNumber text (n + 1) (value.getD 0.0) .invalidDigit
    (n = 0 || (ds.drop n).head?.any Char.isAlphanum)

/-- The decimal that starts with a digit, or with a point before a digit. -/
def scanDecimal (c : Char) (cs : List Char) : Scan :=
  let n := digitRun cs
  let n := if c = '.' then n else n + fractionRun (cs.drop n)
  let n := n + exponentRun (cs.drop n)
  let value := Number.readUnsigned (withoutSeparators (c :: cs.take n))
  finishNumber (c :: cs) n (value.getD 0.0) .identifierAfterNumber
    ((cs.drop n).head?.any isNameStart)

def radix? : Char → Option Nat
  | 'x' | 'X' => some 16
  | 'o' | 'O' => some 8
  | 'b' | 'B' => some 2
  | _ => none

/-- The number that starts with a digit, or with a point before a digit. -/
def scanNumber (c : Char) (cs : List Char) : Scan :=
  match cs.head?.bind radix? with
  | some radix => if c = '0' then scanRadix radix (c :: cs) else scanDecimal c cs
  | none => scanDecimal c cs

/-! ## Marks -/

/-- The mark stands at the front of a text. A question mark does not take a point that a digit
follows: that point starts a number. -/
def Mark.fits (m : Mark) (text : List Char) : Bool :=
  m.spelling.toList.isPrefixOf text && !(m = .questionDot && (text.drop 2).head?.any Char.isDigit)

/-- The longest mark at the front of a text. -/
def Mark.longest? (text : List Char) : Option Mark := Mark.longestFirst.find? (·.fits text)

/-! ## Pieces -/

/-- What stands at the front of the text `c :: cs`. -/
def scan (c : Char) (cs : List Char) : Scan :=
  if Text.isBlank c then ⟨none, (cs.takeWhile Text.isBlank).length, []⟩
  else if c = '/' ∧ cs.head? = some '/' then ⟨none, (cs.takeWhile (· ≠ '\n')).length, []⟩
  else if c = '/' ∧ cs.head? = some '*' then
    match blockCommentRun (cs.drop 1) with
    | some n => ⟨none, n + 1, []⟩
    | none => .fault (c :: cs) cs.length .unterminatedComment
  else if c = '"' ∨ c = '\'' then scanString c cs
  else if c.isDigit ∨ (c = '.' ∧ cs.head?.any Char.isDigit) then scanNumber c cs
  else if isNameStart c then scanWord c cs
  else
    match Mark.longest? (c :: cs) with
    | some m => ⟨some (.mark m), m.spelling.length - 1, []⟩
    | none => .fault (c :: cs) 0 (.unexpectedCharacter c)

structure Lexeme where
  text : List Char
  kind : Option TokenKind
  faults : List Diagnostic

def lexemes : List Char → List Lexeme
  | [] => []
  | c :: cs =>
    let s := scan c cs
    ⟨c :: cs.take s.more, s.kind, s.faults⟩ :: lexemes (cs.drop s.more)
termination_by cs => cs.length
decreasing_by simp only [List.length_cons, List.length_drop]; omega

/-- Nothing of the text is lost between its pieces. -/
theorem flatMap_text_lexemes (cs : List Char) : (lexemes cs).flatMap Lexeme.text = cs := by
  fun_induction lexemes cs with
  | case1 => rfl
  | case2 c cs s ih =>
    simp only [List.flatMap_cons, ih, List.cons_append, List.take_append_drop]

/-! ## Tokens -/

/-- The tokens of a text and what is wrong with them. -/
structure Lexed where
  tokens : List Token
  diagnostics : List Diagnostic

/-- Pieces that start at an offset, as tokens. The last token is the end. -/
def Lexed.place (offset : Nat) : List Lexeme → Lexed
  | [] => ⟨[⟨.eof, ⟨offset, offset⟩⟩], []⟩
  | l :: rest =>
    let next := offset + byteLength l.text
    let r := place next rest
    ⟨(l.kind.map fun k => ⟨k, ⟨offset, next⟩⟩).toList ++ r.tokens,
      l.faults.map (·.shift offset) ++ r.diagnostics⟩

def tokenize (source : String) : Lexed := .place 0 (lexemes source.toList)

end ScriptFold
