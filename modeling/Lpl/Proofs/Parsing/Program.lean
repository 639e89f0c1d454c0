import Lpl.Proofs.Parsing.Completeness
import Lpl.Proofs.Parsing.Soundness

/-!
# Reading programs is deciding the grammar

**Theorem (`ofTokens_eq_ok_iff`).** The program read from a token list is the one that the grammar
derives from the tokens before the end of the file, and there is one if the grammar derives any. No
two programs are derived from the same tokens.

What is read is derived (`reads_programWithin`), and what is left over is the end of the file, as no
other token of that kind is there. What is derived is read (`programWithin_eq_ok`), as the bound is
larger than the number of all tokens. The grammar is unambiguous because reading is a function.
-/

namespace Lpl

open TokenStream

/-- Tokens up to an end of file, or up to the end of the list, and what a stream makes of them. -/
theorem ofTokens_append {ts rest : List Token} (hts : ∀ t ∈ ts, t.kind ≠ .eof)
    (hrest : ∀ t ∈ rest.head?, t.kind = .eof) :
    ∃ last : Token, TokenStream.ofTokens (ts ++ rest) = ⟨ts, last⟩ ∧ last.kind = .eof := by
  have hnone : rest.takeWhile (fun t => t.kind ≠ .eof) = [] := by
    cases rest with
    | nil => rfl
    | cons t rest => simp [hrest t rfl]
  refine ⟨endOf (ts ++ rest), ?_, ?_⟩
  · rw [TokenStream.ofTokens, List.takeWhile_append_of_pos (by simpa using hts), hnone,
      List.append_nil]
  · unfold endOf
    split
    · next t ht => simpa using List.find?_some ht
    · rfl

/-- A program that is read is read within the bound. -/
theorem program_eq_ok {s s' : TokenStream} {p : Program} :
    Parser.program s = .ok p s' ↔ Parser.programWithin (s.ahead.length + 1) s = .ok p s' := by
  unfold Parser.program
  cases Parser.programWithin (s.ahead.length + 1) s with
  | ok q s₁ => simp
  | error h s₁ => cases h <;> simp

theorem program_of_rejected {s s' : TokenStream} {e : ParseError}
    (h : Parser.programWithin (s.ahead.length + 1) s = .error (.rejected e) s') :
    Parser.program s = .error e s' := by
  unfold Parser.program
  rw [h]

/-- A program that is not read stops within the bound, and if it is for the tokens, this is the error. -/
theorem exists_stop_of_program {s s' : TokenStream} {e : ParseError}
    (h : Parser.program s = .error e s') :
    ∃ stop, Parser.programWithin (s.ahead.length + 1) s = .error stop s' ∧
      ∀ e', stop = .rejected e' → e' = e := by
  cases hwithin : Parser.programWithin (s.ahead.length + 1) s with
  | ok q s₁ =>
    rw [program_eq_ok.2 hwithin] at h
    cases h
  | error stop s₁ =>
    unfold Parser.program at h
    rw [hwithin] at h
    cases stop with
    | rejected e' =>
      cases h
      refine ⟨_, rfl, fun e' he' => ?_⟩
      cases he'
      rfl
    | outOfRange | exhausted =>
      cases h
      refine ⟨_, rfl, fun e' he' => ?_⟩
      cases he'

theorem program_eq_ok_iff {ts : List Token} {last : Token} {p : Program}
    (hts : ∀ t ∈ ts, t.kind ≠ .eof) (hs : Clean ⟨ts, last⟩) :
    (∃ s, Parser.program ⟨ts, last⟩ = .ok p s) ↔ Grammar.Program ts p := by
  constructor
  · rintro ⟨s, h⟩
    obtain ⟨us, hus, -, hp, hend⟩ := Parser.reads_programWithin _ hs (program_eq_ok.1 h)
    have hahead : ts = us ++ s.ahead := congrArg TokenStream.ahead hus
    have hnil : s.ahead = [] := by
      cases hcons : s.ahead with
      | nil => rfl
      | cons t vs =>
        have ht : s.head = t := by rw [TokenStream.head, hcons]; rfl
        exact absurd (ht ▸ hend) (hts t (by simp [hahead, hcons]))
    rw [hahead, hnil, List.append_nil]
    exact hp
  · intro h
    have hread := Parser.programWithin_eq_ok (s := ⟨[], last⟩) h (Nat.le_succ _) hs.ends
    refine ⟨⟨[], last⟩, program_eq_ok.2 ?_⟩
    have happend : ts ++ (⟨[], last⟩ : TokenStream) = ⟨ts, last⟩ :=
      congrArg (TokenStream.mk · last) (List.append_nil ts)
    rw [happend] at hread
    exact hread

theorem ofTokens_eq_ok_iff {ts rest : List Token} (hts : ∀ t ∈ ts, t.kind ≠ .eof)
    (hrest : ∀ t ∈ rest.head?, t.kind = .eof)
    (hdigits : ∀ t ∈ ts, t.kind = .intLiteral → t.lexeme.toList.all Char.isDigit) :
    (∀ p, Program.ofTokens (ts ++ rest) = .ok p ↔ Grammar.Program ts p) ∧
      ∀ p q, Grammar.Program ts p → Grammar.Program ts q → p = q := by
  obtain ⟨last, hstream, hlast⟩ := ofTokens_append hts hrest
  have hiff : ∀ p, Program.ofTokens (ts ++ rest) = .ok p ↔ Grammar.Program ts p := by
    intro p
    have hclean : Clean ⟨ts, last⟩ := ⟨hlast, hdigits⟩
    rw [← program_eq_ok_iff hts hclean, Program.ofTokens, hstream]
    cases Parser.program ⟨ts, last⟩ with
    | ok q s => simp
    | error e s => simp
  refine ⟨hiff, fun p q hp hq => ?_⟩
  have heq := ((hiff p).2 hp).symm.trans ((hiff q).2 hq)
  exact Except.ok.inj heq

/-- The tokens of `BEGIN int x; IF (x < -1) IF (x) x = -x; ELSE NEWLINE; END`. -/
def danglingElse : List Token :=
  [⟨.kwBegin, "BEGIN", ⟨1, 1⟩⟩, ⟨.kwInt, "int", ⟨1, 7⟩⟩, ⟨.ident, "x", ⟨1, 11⟩⟩,
    ⟨.semicolon, ";", ⟨1, 12⟩⟩, ⟨.kwIf, "IF", ⟨1, 14⟩⟩, ⟨.lparen, "(", ⟨1, 17⟩⟩,
    ⟨.ident, "x", ⟨1, 18⟩⟩, ⟨.less, "<", ⟨1, 20⟩⟩, ⟨.minus, "-", ⟨1, 22⟩⟩,
    ⟨.intLiteral, "1", ⟨1, 23⟩⟩, ⟨.rparen, ")", ⟨1, 24⟩⟩, ⟨.kwIf, "IF", ⟨1, 26⟩⟩,
    ⟨.lparen, "(", ⟨1, 29⟩⟩, ⟨.ident, "x", ⟨1, 30⟩⟩, ⟨.rparen, ")", ⟨1, 31⟩⟩,
    ⟨.ident, "x", ⟨1, 33⟩⟩, ⟨.assign, "=", ⟨1, 35⟩⟩, ⟨.minus, "-", ⟨1, 37⟩⟩,
    ⟨.ident, "x", ⟨1, 38⟩⟩, ⟨.semicolon, ";", ⟨1, 39⟩⟩, ⟨.kwElse, "ELSE", ⟨1, 41⟩⟩,
    ⟨.kwNewline, "NEWLINE", ⟨1, 46⟩⟩, ⟨.semicolon, ";", ⟨1, 53⟩⟩, ⟨.kwEnd, "END", ⟨1, 55⟩⟩]

/-- The `ELSE` belongs to the inner `IF`, and only the first `-` is a sign. -/
def danglingElseTree : Program where
  globals := [⟨"x", ⟨0⟩, ⟨1, 7⟩⟩]
  body := [.ifThen (.binary .less (.var "x" ⟨1, 18⟩) (.int (-1) ⟨1, 22⟩) ⟨1, 20⟩)
    (.ifElse (.var "x" ⟨1, 30⟩) (.assign "x" (.unary .neg (.var "x" ⟨1, 38⟩) ⟨1, 37⟩) ⟨1, 33⟩)
      (.newline ⟨1, 46⟩) ⟨1, 26⟩) ⟨1, 14⟩]
  methods := []

theorem ofTokens_eq_ok_iff_danglingElse :
    Program.ofTokens danglingElse = .ok danglingElseTree ∧
      Grammar.Program danglingElse danglingElseTree ∧
      ∀ q, Grammar.Program danglingElse q → q = danglingElseTree := by
  have hread : Program.ofTokens (danglingElse ++ []) = .ok danglingElseTree := rfl
  obtain ⟨hiff, hunique⟩ :=
    @ofTokens_eq_ok_iff danglingElse [] (by decide) (by decide) (by decide)
  have hderived := (hiff danglingElseTree).1 hread
  exact ⟨hread, hderived, fun q hq => hunique q danglingElseTree hq hderived⟩

end Lpl
