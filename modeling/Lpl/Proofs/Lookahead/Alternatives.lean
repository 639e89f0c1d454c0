import Lpl.Proofs.Lookahead.Program

/-!
# What the alternatives of a syntax error leave out

A syntax error lists the kinds that the parser asks for where it stops. Optional parts that it has passed
over by then are not among them: where `int` is followed by neither, the name is listed, and the `[` that
could go on with the type is not.

**Theorem (`alternatives_listed`).** A kind with which the tokens before the offending one can go on is
listed, or belongs to a part that may be passed over before such a list (`ParseError.passedOver`). Each
kind of such a part is left out by some error.
-/

namespace Lpl

open TokenStream Grammar
open Token (Kind sample)

variable {ts us : List Token} {e : ParseError} {s s₁ : TokenStream} {k : Kind}

/-- A token of the kind can follow in a token list that has a program. The end of the file can if there
is a program already. -/
def Acceptable (us : List Token) (k : Kind) : Prop :=
  if k = .eof then Accepted us else ∃ u rest, u.kind = k ∧ Accepted (us ++ u :: rest)

/-! ## Nothing else is left out -/

/-- The place of a failure. Every token of a kind that was not looked for there fails too. -/
theorem Parser.exists_blame (hs : s.last.kind = .eof) (h : Parser.program s = .error e s₁) :
    ∃ (us : List Token) (s₀ : TokenStream), s = us ++ s₀ ∧ MetAt e s₀ s₁ ∧
      ∀ s' : TokenStream, s'.last.kind = .eof → ¬ e.Looked s'.head.kind →
        ∃ e' s'', Parser.program (us ++ s') = .error e' s'' := by
  rw [program_eq_error hs] at h
  obtain ⟨_, us, s₀, ⟨⟩, hus, hmet, -⟩ := (settles_program (m := 0) hs (Nat.lt_succ_self _)).blame h
  refine ⟨us, s₀, hus, hmet, fun s' hs' hlooked => ?_⟩
  -- The place is the same for all bounds.
  obtain ⟨_, vs, s₀', ⟨⟩, hvs, hmet', -, htransfer⟩ :=
    (settles_program (m := (us ++ s').ahead.length + 1) hs (Nat.lt_succ_self _)).blame h
  obtain rfl := hmet.unique hmet'
  obtain rfl := append_right_cancel (hus.symm.trans hvs)
  obtain ⟨stop, s'', hfails⟩ := htransfer s' ⟨hs', .inr hlooked, by simp⟩
  cases hprogram : program (us ++ s') with
  | ok p s₂ => cases (program_eq_ok.1 hprogram).symm.trans hfails
  | error e' s₂ => exact ⟨e', s₂, rfl⟩

/-- A kind that can follow is the next one of a stream that the tokens go on with. -/
theorem exists_stream_of_acceptable (hus : NoEof us) (h : Acceptable us k) :
    ∃ (s : TokenStream) (p : Program) (s' : TokenStream),
      s.last.kind = .eof ∧ s.head.kind = k ∧ Parser.program (us ++ s) = .ok p s' := by
  unfold Acceptable at h
  split at h
  · next heof =>
    obtain ⟨p, s', hok⟩ := accepted_iff.1 h
    refine ⟨⟨[], endOf us⟩, p, s', kind_endOf us, heof ▸ kind_endOf us, ?_⟩
    have happend : us ++ (⟨[], endOf us⟩ : TokenStream) = ⟨us, endOf us⟩ :=
      congrArg (TokenStream.mk · _) (List.append_nil us)
    rw [happend, ← ofTokens_of_noEof hus]
    exact hok
  · obtain ⟨u, rest, hu, haccepted⟩ := h
    obtain ⟨p, s', hok⟩ := accepted_iff.1 haccepted
    rw [ofTokens_append_cons hus] at hok
    exact ⟨_, p, s', kind_endOf _, head_ofTokens_cons ▸ hu, hok⟩

/-- A kind that can follow makes a difference, so it has been looked for. -/
theorem looked_of_acceptable (hus : NoEof us) (hk : Acceptable us k)
    (hfails : ∀ s' : TokenStream, s'.last.kind = .eof → ¬ e.Looked s'.head.kind →
      ∃ e' s'', Parser.program (us ++ s') = .error e' s'') : e.Looked k := by
  obtain ⟨s', p, s'', hs', rfl, hok⟩ := exists_stream_of_acceptable hus hk
  by_contra hlooked
  obtain ⟨e', s₂, herror⟩ := hfails s' hs' hlooked
  cases hok.symm.trans herror

/-! ## Everything named is left out somewhere -/

/-- The error of a token list, if there is one. -/
def errorOf? (ts : List Token) : Option ParseError :=
  match Parser.program (.ofTokens ts) with
  | .ok _ _ => none
  | .error e _ => some e

theorem exists_of_errorOf?_eq_some (h : errorOf? ts = some e) :
    ∃ s, Parser.program (.ofTokens ts) = .error e s := by
  unfold errorOf? at h
  split at h
  · cases h
  · next s heq =>
    cases h
    exact ⟨s, heq⟩

theorem accepted_of_errorOf?_eq_none (h : errorOf? ts = none) : Accepted ts := by
  unfold errorOf? at h
  split at h
  · next p s heq => exact accepted_iff.2 ⟨p, s, heq⟩
  · cases h

theorem acceptable_of_errorOf?_eq_none (t : Token) (rest : List Token) (ht : t.kind ≠ .eof)
    (h : errorOf? (us ++ t :: rest) = none) : Acceptable us t.kind := by
  rw [Acceptable, if_neg ht]
  exact ⟨t, rest, rfl, accepted_of_errorOf?_eq_none h⟩

/-- A place where an error leaves out a kind: the tokens before it, the offending token, and how the
tokens could go on behind the kind that is left out. -/
structure Omission where
  before : List Kind
  found : Kind
  omitted : Kind
  after : List Kind

namespace Omission

/-- The error lists the kinds `K`, and leaves out one that can follow. -/
def Occurs (K : List Kind) (o : Omission) : Prop :=
  errorOf? (o.before.map sample ++ [sample o.found]) = some (.unexpected (sample o.found) K) ∧
    errorOf? (o.before.map sample ++ sample o.omitted :: o.after.map sample) = none ∧
    o.omitted ∉ .eof :: K

instance (K : List Kind) : DecidablePred (Occurs K) := fun _ => inferInstanceAs (Decidable (_ ∧ _))

/-- The kinds that may follow an expression, and what they need behind them. -/
def tails : List (Kind × List Kind) :=
  [(.lparen, [.rparen]), (.lbracket, [.ident, .rbracket]), (.dot, [.kwLength]), (.star, [.ident]),
    (.slash, [.ident]), (.plus, [.ident]), (.minus, [.ident]), (.less, [.ident]), (.lessEq, [.ident]),
    (.equalTo, [.ident]), (.andAnd, [.ident]), (.orOr, [.ident])]

/-- An operand that could go on. -/
def ofTails (before : List Kind) (found : Kind) (after : List Kind) : List Omission :=
  tails.map fun r => ⟨before, found, r.1, r.2 ++ after⟩

/-- An `IF` without an `ELSE`. -/
def conditional : List Kind := [.kwIf, .lparen, .ident, .rparen, .kwNewline, .semicolon]

/-- The start of a `SWITCH`. -/
def switchStart : List Kind := [.kwBegin, .kwSwitch, .lparen, .ident, .rparen, .lbrace]

/-- The end of a `SWITCH`. -/
def switchEnd : List Kind := [.kwDefault, .colon, .kwNewline, .semicolon, .rbrace, .kwEnd]

/-- What each list of alternatives leaves out somewhere. -/
def places : List (List Kind × List Omission) :=
  [(Parser.expressionStart,
      [⟨[.kwBegin, .ident, .lparen], .semicolon, .rparen, [.semicolon, .kwEnd]⟩,
        ⟨[.kwBegin, .kwReturn], .rparen, .semicolon, [.kwEnd]⟩,
        ⟨[.kwBegin, .ident, .assign, .kwNew, .kwInt, .lbracket, .ident, .rbracket, .lbracket], .semicolon,
          .rbracket, [.semicolon, .kwEnd]⟩]),
    ([.semicolon], ofTails [.kwBegin, .ident, .assign, .ident] .rparen [.semicolon, .kwEnd]),
    ([.rbracket], ofTails [.kwBegin, .ident, .lbracket, .ident] .semicolon
      [.rbracket, .assign, .ident, .semicolon, .kwEnd]),
    ([.rparen],
      ⟨[.kwBegin, .ident, .lparen, .ident], .semicolon, .comma, [.ident, .rparen, .semicolon, .kwEnd]⟩ ::
      ⟨[.kwBegin, .kwEnd, .kwProc, .ident, .lparen], .semicolon, .kwInt,
        [.ident, .rparen, .lbrace, .rbrace]⟩ ::
      ofTails [.kwBegin, .ident, .lparen, .ident] .semicolon [.rparen, .semicolon, .kwEnd]),
    ([.ident], [⟨[.kwBegin, .kwInt], .semicolon, .lbracket, [.rbracket, .ident, .semicolon, .kwEnd]⟩]),
    ([.intLiteral], [⟨switchStart ++ [Kind.kwCase], .colon, .minus,
      .intLiteral :: .colon :: .kwNewline :: .semicolon :: switchEnd⟩]),
    ([.rbrace], [⟨switchStart ++ Kind.kwDefault :: Kind.colon :: conditional, .semicolon, .kwElse,
      [.kwNewline, .semicolon, .rbrace, .kwEnd]⟩]),
    ([.kwCase, .kwDefault],
      [⟨switchStart ++ Kind.kwCase :: Kind.intLiteral :: Kind.colon :: conditional, .semicolon, .kwElse,
        .kwNewline :: .semicolon :: switchEnd⟩]),
    (Parser.statementStart ++ [Kind.kwEnd],
      [⟨.kwBegin :: conditional, .semicolon, .kwElse, [.kwNewline, .semicolon, .kwEnd]⟩]),
    (Parser.statementStart ++ [Kind.rbrace],
      [⟨.kwBegin :: .lbrace :: conditional, .semicolon, .kwElse,
        [.kwNewline, .semicolon, .rbrace, .kwEnd]⟩])]

theorem occurs_places : ∀ r ∈ places, ∀ o ∈ r.2, Occurs r.1 o := by decide +kernel

/-- Every list of alternatives that passes over some part has its places. -/
theorem exists_place {K : List Kind} (hk : k ∈ ParseError.passedOver K) :
    ∃ r ∈ places, r.1 = K ∧ ∃ o ∈ r.2, o.omitted = k := by
  have hlisted : K ∈ places.map Prod.fst := by
    by_contra hnone
    simp only [places, List.map_cons, List.map_nil, List.mem_cons, List.not_mem_nil, or_false,
      not_or] at hnone
    simp [ParseError.passedOver, hnone] at hk
  obtain ⟨r, hr, rfl⟩ := List.mem_map.1 hlisted
  have hall : ∀ r ∈ places, ∀ k ∈ ParseError.passedOver r.1, ∃ o ∈ r.2, o.omitted = k := by
    decide +kernel
  exact ⟨r, hr, rfl, hall r hr k hk⟩

end Omission

/-- A kind that can follow is listed, or belongs to a part that is passed over before such a list. No
smaller table of these parts would do: each of them is left out by an error with the same list. -/
theorem alternatives_listed (h : Parser.program (.ofTokens ts) = .error e s) :
    (∃ i t, (terminated ts)[i]? = some t ∧ e.found? = some t ∧
      (i + if e.ofLiteral then 1 else 0) + s.ahead.length = (TokenStream.ofTokens ts).ahead.length ∧
      ∀ k, Acceptable (ts.take i) k → k ∈ e.expected ∨ k ∈ e.unlisted) ∧
    ∀ k ∈ ParseError.passedOver e.expected,
      ∃ us t s', Parser.program (.ofTokens (us ++ [t])) = .error (.unexpected t e.expected) s' ∧
        Acceptable us k ∧ k ∉ e.expected := by
  constructor
  · obtain ⟨us, s₀, hstream, hmet, hfails⟩ := Parser.exists_blame (kind_endOf ts) h
    have hno : NoEof us := (noEof_append.1 (ahead_append ▸ hstream ▸ noEof_ahead ts)).1
    obtain ⟨htake, hindex⟩ := getElem?_terminated hstream
    refine ⟨us.length, s₀.head, hindex, hmet.found, ?_, fun k hk => ?_⟩
    · rw [hstream, ahead_append, List.length_append, hmet.length, Nat.add_assoc]
    · rw [htake] at hk
      exact looked_of_acceptable hno hk hfails
  intro k hk
  obtain ⟨r, hr, hlisted, o, ho, rfl⟩ := Omission.exists_place hk
  obtain ⟨hrejected, haccepted, hne⟩ := Omission.occurs_places r hr o ho
  rw [hlisted] at hrejected hne
  obtain ⟨s', hs'⟩ := exists_of_errorOf?_eq_some hrejected
  rw [List.mem_cons, not_or] at hne
  exact ⟨o.before.map sample, sample o.found, s', hs',
    acceptable_of_errorOf?_eq_none (sample o.omitted) _ hne.1 haccepted, hne.2⟩

/-- The tokens of `BEGIN int ; END`. -/
def namelessDeclaration : List Token :=
  [⟨.kwBegin, "BEGIN", ⟨1, 1⟩⟩, ⟨.kwInt, "int", ⟨1, 7⟩⟩, ⟨.semicolon, ";", ⟨1, 11⟩⟩,
    ⟨.kwEnd, "END", ⟨1, 13⟩⟩]

/-- Behind `BEGIN int` there can be a name or a `[`. -/
theorem alternatives_listed_namelessDeclaration :
    Parser.program (.ofTokens namelessDeclaration) =
        .error (.unexpected ⟨.semicolon, ";", ⟨1, 11⟩⟩ [.ident])
          ⟨namelessDeclaration.drop 2, endOf namelessDeclaration⟩ ∧
      ∀ k, Acceptable (namelessDeclaration.take 2) k ↔ k = .ident ∨ k = .lbracket := by
  have hread : Parser.program (.ofTokens namelessDeclaration) =
      .error (.unexpected ⟨.semicolon, ";", ⟨1, 11⟩⟩ [.ident])
        ⟨namelessDeclaration.drop 2, endOf namelessDeclaration⟩ := rfl
  obtain ⟨⟨i, t, -, -, hplace, hlisted⟩, -⟩ := alternatives_listed hread
  obtain rfl : i = 2 := by
    simpa [namelessDeclaration, TokenStream.ofTokens, ParseError.ofLiteral] using hplace
  refine ⟨hread, fun k => ⟨fun hk => ?_, ?_⟩⟩
  · have hkinds : k ∈ [Kind.ident] ∨ k ∈ [Kind.lbracket] := hlisted k hk
    simpa using hkinds
  · rintro (rfl | rfl)
    · exact acceptable_of_errorOf?_eq_none (sample .ident) [sample .semicolon, sample .kwEnd]
        (by decide) (by decide +kernel)
    · exact acceptable_of_errorOf?_eq_none (sample .lbracket)
        [sample .rbracket, sample .ident, sample .semicolon, sample .kwEnd] (by decide) (by decide +kernel)

/-- The `[` can follow, and the error does not list it. -/
theorem bracket_not_listed :
    Program.ofTokens namelessDeclaration =
        .error (.unexpected ⟨.semicolon, ";", ⟨1, 11⟩⟩ [.ident]) ∧
      namelessDeclaration[2]? = some ⟨.semicolon, ";", ⟨1, 11⟩⟩ ∧
      Acceptable (namelessDeclaration.take 2) .lbracket ∧ .lbracket ∉ [Kind.ident] := by
  refine ⟨rfl, rfl, ?_, by decide⟩
  exact acceptable_of_errorOf?_eq_none (sample .lbracket)
    [sample .rbracket, sample .ident, sample .semicolon, sample .kwEnd] (by decide) (by decide +kernel)

end Lpl
