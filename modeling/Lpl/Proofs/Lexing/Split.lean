import Lpl.Token.Scanner

/-!
# How a text falls into tokens

What the tokens of a text are, said without a scanner. `Split before text ts`: the tokens `ts` are
those of `text`, which stands behind the text `before`. Gaps and lexemes alternate. A gap is the longest
run of blanks and comments at its place, perhaps an empty one, and a lexeme is the longest word, number
or symbol at its place.
-/

namespace Lpl.Lexing

/-! ## Gaps -/

/-- Blanks and comments, with `rest` behind them. A line comment runs through its newline or to the end
of the text. A block comment ends at the first `*/` behind its opening two characters. -/
inductive Trivial (rest : List Char) : List Char → Prop
  | nil : Trivial rest []
  | blank {c g} : isBlank c → Trivial rest g → Trivial rest (c :: g)
  | line {body g} : '\n' ∉ body → Trivial rest g → Trivial rest ('/' :: '/' :: (body ++ '\n' :: g))
  | lineAtEnd {body} : '\n' ∉ body → rest = [] → Trivial rest ('/' :: '/' :: body)
  | block {body g} : ¬ ['*', '/'] <:+: body → Trivial rest g →
      Trivial rest ('/' :: '*' :: (body ++ '*' :: '/' :: g))

/-- The longest run of blanks and comments, with no block comment behind it that never closes. -/
structure IsGap (g rest : List Char) : Prop where
  trivial : Trivial rest g
  longest : ∀ g' rest', g' ++ rest' = g ++ rest → Trivial rest' g' → g'.length ≤ g.length
  closed : ¬ ['/', '*'] <+: rest

/-! ## Lexemes -/

/-- `[A-Za-z][A-Za-z0-9_]*` -/
def IsWord (w : List Char) : Prop := (∃ c ∈ w.head?, c.isAlpha) ∧ ∀ c ∈ w, isWordChar c

/-- `[0-9][0-9]*` -/
def IsNumber (w : List Char) : Prop := w ≠ [] ∧ ∀ c ∈ w, c.isDigit

instance (w : List Char) : Decidable (IsWord w) :=
  decidable_of_iff (w.head?.any Char.isAlpha ∧ w.all isWordChar) (by simp [IsWord, Option.any_eq_true])

instance (w : List Char) : Decidable (IsNumber w) :=
  decidable_of_iff (w ≠ [] ∧ w.all Char.isDigit) (by simp [IsNumber])

/-- The kind that a lexeme determines. -/
inductive HasKind (w : List Char) : Token.Kind → Prop
  | number : IsNumber w → HasKind w .intLiteral
  | keyword {k} : k ∈ Token.Kind.keywords → k.spelling? = some (String.ofList w) → HasKind w k
  | ident : IsWord w → (∀ k ∈ Token.Kind.keywords, k.spelling? ≠ some (String.ofList w)) →
      HasKind w .ident
  | symbol {k} : k ∈ Token.Kind.symbols → k.spelling? = some (String.ofList w) → HasKind w k

/-- The longest lexeme, of kind `k`. A number has to be within the range of a word and its sign. -/
structure IsLexeme (w rest : List Char) (k : Token.Kind) : Prop where
  kind : HasKind w k
  longest : ∀ w' rest' k', w' ++ rest' = w ++ rest → HasKind w' k' → w'.length ≤ w.length
  bounded : IsNumber w → Numeral.decimal w ≤ 2147483648

/-! ## Tokens -/

/-- The line and column behind a text: one more than its newlines, and one more than the characters
since the last of them. -/
def position (before : List Char) : Location :=
  ⟨1 + before.count '\n', 1 + (before.reverse.takeWhile (· ≠ '\n')).length⟩

/-- The tokens of a text that stands behind the text `before`. -/
inductive Split : (before text : List Char) → List Token → Prop
  | last {before g} : IsGap g [] → Split before g [.endOfFile (position (before ++ g))]
  | cons {before g w rest t ts} : IsGap g (w ++ rest) → IsLexeme w rest t.kind →
      t.lexeme = String.ofList w → t.location = position (before ++ g) →
      Split (before ++ g ++ w) rest ts → Split before (g ++ (w ++ rest)) (t :: ts)

end Lpl.Lexing
