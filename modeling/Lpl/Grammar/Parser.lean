import Lpl.Token.Scanner
import Lpl.Token.Stream

/-!
# Parsers

A parser reads from a `TokenSource`, one token of look-ahead at a time. It never goes back: a
parser that fails leaves the source where it stopped, with the offending token next unless the
text of a literal is at fault.

Two failures are not the tokens' fault: to ask for a token where there are no more, and to use up
a bound. They are outcomes of their own, so that one can say that they never happen.
-/

namespace Lpl

/-- Why tokens cannot be read as a program. -/
inductive ParseError where
  /-- The text has no tokens to begin with. -/
  | lexical (error : LexError)
  /-- A token that cannot stand here, and the kinds that could. -/
  | unexpected (found : Token) (expected : List Token.Kind)
  /-- A literal whose value, sign included, is no 32-bit integer. -/
  | literalOutOfRange (literal : Token) (value : Int)
deriving DecidableEq, Repr

namespace ParseError

/-- The error in words. -/
def text : ParseError → String
  | lexical e => e.text
  | unexpected found [] => "Unexpected " ++ found.describe
  | unexpected found [k] => "Expected " ++ k.describe ++ ", found " ++ found.describe
  | unexpected found ks =>
    "Expected one of " ++ ", ".intercalate (ks.map Token.Kind.describe) ++ ", found " ++
      found.describe
  | literalOutOfRange _ value => "Integer literal out of range: " ++ toString value

/-- Where the error is. -/
def location : ParseError → Location
  | lexical e => e.location
  | unexpected found _ => found.location
  | literalOutOfRange literal _ => literal.location

/-- The offending token, if there is one. -/
def found? : ParseError → Option Token
  | lexical _ => none
  | unexpected found _ => some found
  | literalOutOfRange literal _ => some literal

/-- The kinds of token that could stand in its place. -/
def expected : ParseError → List Token.Kind
  | unexpected _ ks => ks
  | _ => []

/-- The whole message, with the location. -/
def message (e : ParseError) : String :=
  "Parse error at " ++ e.location.text ++ ": " ++ e.text

end ParseError

/-- Why a parser stops without a result. -/
inductive ParseStop where
  /-- The tokens are not those of what is to be read. -/
  | rejected (error : ParseError)
  /-- A token was asked for where there are no more. -/
  | outOfRange
  /-- The bound on the rounds of a loop or on the depth of nesting is used up. -/
  | exhausted
deriving DecidableEq, Repr

/-- Reads from a source of tokens. A failure keeps the place it was met at. -/
abbrev ParserOn (σ : Type) := EStateM ParseStop σ

/-- Reads from a token stream. -/
abbrev Parser := ParserOn TokenStream

namespace Parser

variable {σ α : Type}

/-- Fails with an error. -/
def reject (e : ParseError) : ParserOn σ α := throw (.rejected e)

/-- Fails because a bound is used up. -/
def exhausted : ParserOn σ α := throw .exhausted

variable [TokenSource σ]

/-- Looks at the next token. -/
def peek : ParserOn σ Token := fun s =>
  match TokenSource.peek? s with
  | some t => .ok t s
  | none => .error .outOfRange s

/-- Takes the next token. -/
def next : ParserOn σ Token := do
  let t ← peek
  modify TokenSource.advance
  return t

/-- Fails at the next token. -/
def unexpected (expected : List Token.Kind) : ParserOn σ α := do
  reject (.unexpected (← peek) expected)

/-- Whether the next token is of kind `k`. -/
def sees (k : Token.Kind) : ParserOn σ Bool := do
  return (← peek).kind = k

/-- Whether there is a token after the next one, and it is of kind `k`. -/
def seesSecond (k : Token.Kind) : ParserOn σ Bool := fun s =>
  .ok ((TokenSource.second? s).any fun t => t.kind = k) s

/-- Takes the next token if it is of kind `k`, and says whether it was. -/
def accept (k : Token.Kind) : ParserOn σ Bool := do
  let t ← peek
  if t.kind = k then
    let _ ← next
    return true
  else return false

/-- Takes the next token, which has to be of kind `k`. -/
def expect (k : Token.Kind) : ParserOn σ Token := do
  let t ← peek
  if t.kind = k then next else unexpected [k]

/-- Takes an identifier and gives its name. -/
def identifier : ParserOn σ String := do
  return (← expect .ident).lexeme

end Parser

end Lpl
