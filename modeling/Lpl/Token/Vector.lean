import Lpl.Token.Stream

/-!
# Token vectors

A source of tokens that keeps all of them and the index of the next one. Unlike a stream it can be
left: nothing but the end of file stops it from going past its last token, where there is none to
look at. The tokens it is given are therefore closed by an end of file.
-/

namespace Lpl

/-- The tokens with an end of file behind them, unless the last one is an end of file. -/
def terminated (ts : List Token) : List Token :=
  if ts.getLast?.map Token.kind = some .eof then ts
  else ts ++ [.endOfFile ((ts.getLast?.map Token.location).getD ⟨0, 0⟩)]

/-- Tokens, and the index of the one to be read next. -/
structure TokenVector where
  tokens : List Token
  position : Nat
deriving DecidableEq, Repr

namespace TokenVector

/-- The start of a token list. -/
def ofTokens (ts : List Token) : TokenVector := ⟨terminated ts, 0⟩

/-- The vector at the next index, unless the token at this one is an end of file. -/
def advance (v : TokenVector) : TokenVector :=
  if v.tokens[v.position]?.map Token.kind = some .eof then v
  else { v with position := v.position + 1 }

instance : TokenSource TokenVector where
  peek? v := v.tokens[v.position]?
  second? v := v.tokens[v.position + 1]?
  advance := advance

end TokenVector

end Lpl
