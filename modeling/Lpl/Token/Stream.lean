import Lpl.Token

/-!
# Token streams

What a parser reads from is a `TokenSource`. The one that is used is a `TokenStream`: the tokens
up to the first end of file, and that end-of-file token. The end is never taken off, so there is
always a token to look at, and tokens behind the first end of file are out of reach.
-/

namespace Lpl

/-- Places among tokens that can be read on from. -/
class TokenSource (σ : Type) where
  /-- The token to be read next, if there is one. -/
  peek? : σ → Option Token
  /-- The token after that one, if there is one. -/
  second? : σ → Option Token
  /-- The place behind the next token. -/
  advance : σ → σ

/-- The tokens before the end of a file, and the token that ends it. -/
structure TokenStream where
  ahead : List Token
  last : Token
deriving DecidableEq, Repr

namespace TokenStream

/-- The end of file of a token list: its first such token, or one at the location of the last
token (line 0, column 0 for no tokens at all). -/
def endOf (ts : List Token) : Token :=
  match ts.find? fun t => t.kind = .eof with
  | some t => t
  | none => .endOfFile ((ts.getLast?.map Token.location).getD ⟨0, 0⟩)

/-- The stream of a token list, cut at its first end of file. -/
def ofTokens (ts : List Token) : TokenStream :=
  ⟨ts.takeWhile fun t => t.kind ≠ .eof, endOf ts⟩

/-- The token to be read next. -/
def head (s : TokenStream) : Token := s.ahead.headD s.last

/-- The token after the next one; the end of file follows itself. -/
def second (s : TokenStream) : Token := s.ahead.tail.headD s.last

/-- The stream without its next token; nothing comes off at the end of file. -/
def tail (s : TokenStream) : TokenStream := ⟨s.ahead.tail, s.last⟩

instance : TokenSource TokenStream where
  peek? s := some s.head
  second? s := some s.second
  advance := tail

end TokenStream

end Lpl
