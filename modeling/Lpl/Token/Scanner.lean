import Lpl.Numeral
import Lpl.Token

/-!
# Reading a text as tokens

A `Cursor` is the unread part of a text with the location of its first character. The scanner
skips *trivia* (blanks and comments), reads one lexeme, and goes on until the text ends, where
it adds the end-of-file token.

- A lexeme is the longest word `[A-Za-z][A-Za-z0-9_]*`, the longest run of digits, or the
  longest symbol that the unread text starts with.
- A line comment runs through its newline or to the end of the text. A block comment ends at
  the first `*/` after its opening two characters, and has to end.
- A scan that fails reports where the offending lexeme or comment starts. It has read the
  offending characters by then, so that a later scan of the same cursor goes on behind them.
-/

namespace Lpl

/-- Why a text cannot be read as tokens. -/
inductive LexError.Cause where
  /-- A block comment that is still open at the end of the text. -/
  | unterminatedComment
  /-- A literal above the largest magnitude that a word has. -/
  | literalOutOfRange (digits : String)
  /-- A `&` or `|` that stands alone. -/
  | unpaired (c : Char)
  /-- A character that starts no lexeme. -/
  | stray (c : Char)
  /-- A fault found by another source of tokens, in its own words. -/
  | reported (text : String)
deriving DecidableEq, Repr

/-- A lexical fault and where it starts. -/
structure LexError where
  cause : LexError.Cause
  location : Location
deriving DecidableEq, Repr

namespace LexError

/-- The cause in words. -/
def Cause.text : Cause → String
  | unterminatedComment => "Unterminated block comment"
  | literalOutOfRange digits => "Integer literal out of range: " ++ digits
  | unpaired c =>
    let c := String.singleton c
    "Expected '" ++ c ++ c ++ "', found a single '" ++ c ++ "'"
  | stray c => "Unexpected character: '" ++ String.singleton c ++ "'"
  | reported text => text

/-- The fault in words. -/
def text (e : LexError) : String := e.cause.text

/-- The whole message, with the location. -/
def message (e : LexError) : String :=
  "Lexer error at " ++ e.location.text ++ ": " ++ e.text

end LexError

/-- The unread part of a text, and the location of its first character. -/
structure Cursor where
  rest : List Char
  location : Location
deriving DecidableEq, Repr

namespace Cursor

/-- At the start of a text. -/
def ofString (source : String) : Cursor := ⟨source.toList, .start⟩

/-- Past the next `n` characters. -/
def drop (c : Cursor) (n : Nat) : Cursor :=
  ⟨c.rest.drop n, c.location.afterAll (c.rest.take n)⟩

end Cursor

/-! ## Trivia -/

/-- Space, tab, carriage return and newline. -/
def isBlank (c : Char) : Bool :=
  c = ' ' || c = '\t' || c = '\r' || c = '\n'

/-- Where a scan of trivia stands. -/
inductive Trivia where
  /-- Between comments. -/
  | between
  /-- Inside a line comment. -/
  | line
  /-- Inside a block comment that was opened at the given location. -/
  | block (opened : Location)
deriving DecidableEq, Repr

/-- Skips to the first character that is neither blank nor part of a comment. -/
def Trivia.skip : Trivia → Location → List Char → EStateM.Result LexError Cursor Unit
  | .block opened, l, [] => .error ⟨.unterminatedComment, opened⟩ ⟨[], l⟩
  | _, l, [] => .ok () ⟨[], l⟩
  | .between, l, '/' :: '/' :: cs => skip .line ((l.after '/').after '/') cs
  | .between, l, '/' :: '*' :: cs => skip (.block l) ((l.after '/').after '*') cs
  | .between, l, c :: cs =>
    if isBlank c then skip .between (l.after c) cs else .ok () ⟨c :: cs, l⟩
  | .line, l, c :: cs =>
    if c = '\n' then skip .between (l.after c) cs else skip .line (l.after c) cs
  | .block _, l, '*' :: '/' :: cs => skip .between ((l.after '*').after '/') cs
  | .block opened, l, c :: cs => skip (.block opened) (l.after c) cs

/-! ## Lexemes -/

/-- The characters of a word after its first, which is a letter. -/
def isWordChar (c : Char) : Bool :=
  c.isAlphanum || c = '_'

/-- The largest literal: the magnitude of the least 32-bit integer. -/
def maxLiteral : Nat := Numeral.half32

/-- The first symbol of the table that the text starts with. -/
def symbolAt? (cs : List Char) : Option (Token.Kind × List Char) :=
  Token.Kind.symbols.findSome? fun k =>
    k.spelling?.bind fun s => if s.toList.isPrefixOf cs then some (k, s.toList) else none

/-- Reads the lexeme that starts with `c`: its kind, or the fault, and the characters read. -/
def lexeme (c : Char) (cs : List Char) : Except LexError.Cause Token.Kind × List Char :=
  if c.isDigit then
    let digits := c :: cs.takeWhile Char.isDigit
    if Numeral.decimal digits ≤ maxLiteral then (.ok .intLiteral, digits)
    else (.error (.literalOutOfRange (String.ofList digits)), digits)
  else if c.isAlpha then
    let word := c :: cs.takeWhile isWordChar
    (.ok (.ofWord (String.ofList word)), word)
  else
    match symbolAt? (c :: cs) with
    | some (k, s) => (.ok k, s)
    | none => (.error (if c = '&' ∨ c = '|' then .unpaired c else .stray c), [c])

/-! ## The scanner -/

/-- Reads from a cursor. A failure keeps the position it was met at. -/
abbrev Scanner := EStateM LexError Cursor

namespace Scanner

/-- Skips blanks and comments. -/
def trivia : Scanner Unit := fun c => Trivia.between.skip c.location c.rest

/-- Reads the next token. Past trivia, the end of the text is a token of its own. -/
def token : Scanner Token := fun cur =>
  match cur.rest with
  | [] => .ok (.endOfFile cur.location) cur
  | c :: cs =>
    match lexeme c cs with
    | (.ok kind, read) => .ok ⟨kind, String.ofList read, cur.location⟩ (cur.drop read.length)
    | (.error cause, read) => .error ⟨cause, cur.location⟩ (cur.drop read.length)

/-- Reads tokens through the end of the file, with fewer than `n` characters left. Each token but
the last takes one, so `out`, what comes of a bound that is used up, is never asked for. -/
def tokensWithin (out : Scanner (List Token)) : Nat → Scanner (List Token)
  | 0 => out
  | n + 1 => do
    trivia
    let t ← token
    if t.kind = .eof then return [t] else return t :: (← tokensWithin out n)

/-- Reads all tokens that are left, through the end of the file. -/
def tokens : Scanner (List Token) := fun c => tokensWithin (return []) (c.rest.length + 1) c

end Scanner

/-- The tokens of a text. -/
def tokenize (source : String) : Except LexError (List Token) :=
  match Scanner.tokens (.ofString source) with
  | .ok ts _ => .ok ts
  | .error e _ => .error e

end Lpl
