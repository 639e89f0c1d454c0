import Lpl.Grammar.Program
import Lpl.Proofs.Parsing.Derivation

/-!
# Parsers and phrases

A stream is taken apart as `us ++ s`: the tokens of a phrase, and the stream behind them. A parser
`Reads` a nonterminal if what it takes is a phrase of it whenever it succeeds. The other direction is
said of single parsers, since it depends on the bound and on the token behind the phrase.

The lemmas about `expect` and `accept` come in pairs. One gives the result on a stream that starts in
a known way, and one says how a stream started for which there was a result.
-/

namespace Lpl

/-! ## Streams -/

namespace TokenStream

/-- Puts a token before a stream. -/
def cons (t : Token) (s : TokenStream) : TokenStream := ⟨t :: s.ahead, s.last⟩

instance : HAppend (List Token) TokenStream TokenStream := ⟨fun us s => ⟨us ++ s.ahead, s.last⟩⟩

variable (t : Token) (us vs : List Token) (s : TokenStream)

@[simp] theorem nil_append : ([] : List Token) ++ s = s := rfl

@[simp] theorem cons_append : (t :: us) ++ s = cons t (us ++ s) := rfl

@[simp] theorem append_append : (us ++ vs) ++ s = us ++ (vs ++ s) := by
  show TokenStream.mk (us ++ vs ++ s.ahead) s.last = ⟨us ++ (vs ++ s.ahead), s.last⟩
  rw [List.append_assoc]

@[simp] theorem head_cons : (cons t s).head = t := rfl

@[simp] theorem tail_cons : (cons t s).tail = s := rfl

@[simp] theorem second_cons : (cons t s).second = s.head := rfl

/-- A stream that ends with an end of file, and whose literals are made of ASCII digits. -/
structure Clean (s : TokenStream) : Prop where
  ends : s.last.kind = .eof
  digits : ∀ t ∈ s.ahead, t.kind = .intLiteral → t.lexeme.toList.all Char.isDigit

variable {t us s}

theorem Clean.tail (h : Clean (cons t s)) : Clean s :=
  ⟨h.ends, fun t' ht' => h.digits t' (List.mem_cons_of_mem _ ht')⟩

/-- A stream whose next token is no end of file starts with that token. -/
theorem Clean.exists_cons {k : Token.Kind} (hs : Clean s) (hk : k ≠ .eof) (h : s.head.kind = k) :
    ∃ t s₁, s = cons t s₁ ∧ Clean s₁ ∧ t.kind = k := by
  obtain ⟨ahead, last⟩ := s
  cases ahead with
  | nil => exact absurd (h.symm.trans hs.ends) hk
  | cons t ts => exact ⟨t, ⟨ts, last⟩, rfl, Clean.tail (t := t) hs, h⟩

end TokenStream

/-! ## First tokens -/

namespace Grammar

variable {α : Type} {P : Phrase α} {K : List Token.Kind} {us : List Token} {a : α}

/-- Every phrase of `P` starts with a token of a kind in `K`. -/
def Starts (P : Phrase α) (K : List Token.Kind) : Prop :=
  ∀ ⦃us a⦄, P us a → ∃ t vs, us = t :: vs ∧ t.kind ∈ K

theorem Starts.head (hP : Starts P K) (h : P us a) (s : TokenStream) : (us ++ s).head.kind ∈ K := by
  obtain ⟨t, vs, rfl, ht⟩ := hP h
  exact ht

theorem Starts.mono {L : List Token.Kind} (hP : Starts P K) (hL : ∀ k ∈ K, k ∈ L) : Starts P L := by
  intro us a h
  obtain ⟨t, vs, rfl, ht⟩ := hP h
  exact ⟨t, vs, rfl, hL _ ht⟩

theorem Starts.head_ne {k : Token.Kind} (hP : Starts P K) (h : P us a) (hk : k ∉ K)
    (s : TokenStream) : (us ++ s).head.kind ≠ k := by
  intro heq
  exact hk (heq ▸ hP.head h s)

/-- A list of phrases starts like one of them, or it is empty. -/
theorem Starts.head_many_ne {k : Token.Kind} (hP : Starts P K) {as : List α} (h : Many P us as)
    (hk : k ∉ K) {s : TokenStream} (hs : s.head.kind ≠ k) : (us ++ s).head.kind ≠ k := by
  cases h with
  | nil => exact hs
  | @cons us vs a as ha _ =>
    rw [TokenStream.append_append]
    exact hP.head_ne ha hk _

theorem starts_separated (hP : Starts P K) : Starts (Separated P) K := by
  intro us as h
  cases h with
  | one h => exact hP h
  | more h _ _ =>
    obtain ⟨t, vs, rfl, ht⟩ := hP h
    exact ⟨t, _, rfl, ht⟩

theorem starts_bracketed : Starts (Bracketed P) [.lbracket] := by
  intro us a h
  cases h with
  | mk hl _ _ => exact ⟨_, _, rfl, by simp [hl]⟩

theorem starts_parenthesized : Starts (Parenthesized P) [.lparen] := by
  intro us a h
  cases h with
  | mk hl _ _ => exact ⟨_, _, rfl, by simp [hl]⟩

theorem starts_signedInt : Starts SignedInt [.intLiteral, .minus] := by
  intro us v h
  obtain ⟨hliteral, -⟩ := h
  cases hliteral with
  | plain ht _ => exact ⟨_, _, rfl, by simp [ht]⟩
  | negative hm _ _ => exact ⟨_, _, rfl, by simp [hm]⟩

theorem starts_simpleExp : Starts SimpleExp Parser.expressionStart := by
  intro us e h
  cases h with
  | int h => exact starts_signedInt.mono (by decide) h
  | parens h => exact starts_parenthesized.mono (by decide) h
  | call h | named h | length h | neg h | not h | new h | null h =>
    exact ⟨_, _, rfl, by simp [h, Parser.expressionStart]⟩

theorem starts_exp : Starts Exp Parser.expressionStart := by
  intro us e h
  cases h with
  | simple h => exact starts_simpleExp h
  | binary h _ _ =>
    obtain ⟨t, vs, rfl, ht⟩ := starts_simpleExp h
    exact ⟨t, _, rfl, ht⟩

theorem mem_statementStart_of_print {k : Token.Kind} {kind : PrintKind} (h : Print k kind) :
    k ∈ Parser.statementStart := by
  cases h <;> decide

theorem starts_stm : Starts Stm Parser.statementStart := by
  intro us s h
  cases h with
  | print hw _ _ => exact ⟨_, _, rfl, mem_statementStart_of_print hw⟩
  | call h | assign h | ifThen h | ifElse h | whileDo h | switch h | block h | newline h | ret h
  | retValue h => exact ⟨_, _, rfl, by simp [h, Parser.statementStart]⟩

theorem starts_case {Stm : Phrase Stmt} : Starts (Case Stm) [.kwCase] := by
  intro us c h
  obtain ⟨hc, -, -, -⟩ := h
  exact ⟨_, _, rfl, by simp [hc]⟩

theorem starts_typedName : Starts TypedName [.kwInt] := by
  intro us d h
  obtain ⟨htype, -⟩ := h
  cases htype with
  | mk ht _ => exact ⟨_, _, rfl, by simp [ht]⟩

theorem starts_varDecl : Starts VarDecl [.kwInt] := by
  intro us d h
  obtain ⟨hd, -⟩ := h
  obtain ⟨t, vs, rfl, ht⟩ := starts_typedName hd
  exact ⟨t, _, rfl, ht⟩

end Grammar

/-! ## Numerals -/

/-- A numeral without a sign is its decimal value. -/
theorem signed?_of_digits {cs : List Char} (h : cs.all Char.isDigit) :
    Numeral.signed? cs = Option.map Int.ofNat (Numeral.magnitude? cs) := by
  unfold Numeral.signed?
  split
  · cases h
  · cases h
  · cases Numeral.magnitude? cs <;> rfl

theorem read?_eq_some_iff {half : Nat} {text : String} {n : Int}
    (h : text.toList.all Char.isDigit) :
    Numeral.read? half text = some n ↔
      ∃ m : Nat, Numeral.magnitude? text.toList = some m ∧ n = m ∧ Numeral.Within half n := by
  rw [Numeral.read?, signed?_of_digits h, Option.filter_eq_some_iff, Option.map_eq_some_iff,
    decide_eq_true_eq]
  constructor
  · rintro ⟨⟨m, hm, rfl⟩, hn⟩
    exact ⟨m, hm, rfl, hn⟩
  · rintro ⟨m, hm, rfl, hn⟩
    exact ⟨⟨m, hm, rfl⟩, hn⟩

/-- All 64-bit numbers but the least have a negative in 64 bits. -/
theorem negate64_natCast {n : Nat} (h : Numeral.Within Numeral.half64 n) :
    Numeral.negate64 n = -(n : Int) := by
  unfold Numeral.Within Numeral.half64 at h
  rw [Numeral.negate64, Int64.toInt_neg, Int64.toInt_ofInt_of_le (by omega) (by omega)]
  exact Int.bmod_eq_of_le (by omega) (by omega)

/-- A literal of ASCII digits has a value if that fits 32 bits with its sign. It fits 64 bits without one
then. -/
theorem literalValue_eq_ok_iff {negative : Bool} {t : Token} {v : Int32}
    (h : t.lexeme.toList.all Char.isDigit) :
    Parser.literalValue negative t = .ok v ↔
      ∃ n : Nat, Numeral.magnitude? t.lexeme.toList = some n ∧
        Numeral.Within Numeral.half32 (if negative then -(n : Int) else n) ∧
        v = .ofInt (if negative then -(n : Int) else n) := by
  unfold Parser.literalValue
  constructor
  · intro hv
    split at hv
    · cases hv
    · next m hread =>
      obtain ⟨n, hn, rfl, hwithin⟩ := (read?_eq_some_iff h).1 hread
      simp only [negate64_natCast hwithin] at hv
      by_cases hrange : Numeral.Within Numeral.half32 (if negative then -(n : Int) else n)
      · rw [if_pos hrange] at hv
        exact ⟨n, hn, hrange, (Except.ok.inj hv).symm⟩
      · rw [if_neg hrange] at hv
        cases hv
  · rintro ⟨n, hn, hrange, rfl⟩
    have hwithin : Numeral.Within Numeral.half64 n := by
      unfold Numeral.Within Numeral.half32 at hrange
      unfold Numeral.Within Numeral.half64
      split at hrange <;> omega
    have hread := (read?_eq_some_iff h).2 ⟨n, hn, rfl, hwithin⟩
    simp only [hread, negate64_natCast hwithin, if_pos hrange]

/-! ## Results -/

namespace Parser

open TokenStream

variable {α β : Type} {s s' : TokenStream} {k : Token.Kind} {t : Token}

theorem bind_ok {x : Parser α} {f : α → Parser β} {a : α} (h : x s = .ok a s') :
    (x >>= f) s = f a s' := by
  show EStateM.bind x f s = _
  simp only [EStateM.bind, h]

theorem bind_eq_ok {x : Parser α} {f : α → Parser β} {b : β} :
    (x >>= f) s = .ok b s' ↔ ∃ a s₁, x s = .ok a s₁ ∧ f a s₁ = .ok b s' := by
  show EStateM.bind x f s = _ ↔ _
  cases hx : x s with
  | ok a s₁ =>
    simp only [EStateM.bind, hx]
    constructor
    · exact fun h => ⟨a, s₁, rfl, h⟩
    · rintro ⟨_, _, ⟨⟩, h⟩
      exact h
  | error e s₁ => simp [EStateM.bind, hx]

theorem expect_of_eq (hk : s.head.kind = k) : expect k s = .ok s.head s.tail := congrFun (if_pos hk) s

theorem expect_of_ne (hk : s.head.kind ≠ k) : expect k s = unexpected [k] s := congrFun (if_neg hk) s

theorem accept_of_eq (hk : s.head.kind = k) : accept k s = .ok true s.tail := congrFun (if_pos hk) s

theorem accept_of_ne (hk : s.head.kind ≠ k) : accept k s = .ok false s := congrFun (if_neg hk) s

theorem expect_cons (ht : t.kind = k) : expect k (cons t s) = .ok t s := expect_of_eq ht

theorem accept_cons (ht : t.kind = k) : accept k (cons t s) = .ok true s := accept_of_eq ht

theorem unexpected_eq {K : List Token.Kind} :
    (unexpected K : Parser α) s = .error (.rejected (.unexpected s.head K)) s := rfl

theorem bind_peek {f : Token → Parser β} : (peek >>= f) s = f s.head s := rfl

theorem bind_sees {f : Bool → Parser β} : (sees k >>= f) s = f (s.head.kind = k) s := rfl

theorem bind_seesSecond {f : Bool → Parser β} : (seesSecond k >>= f) s = f (s.second.kind = k) s := rfl

/-- A literal that is taken decides the outcome. -/
theorem magnitude_cons {negative : Bool} (ht : t.kind = .intLiteral) :
    magnitude negative (cons t s) =
      match literalValue negative t with
      | .ok v => .ok v s
      | .error e => .error (.rejected e) s := by
  refine (bind_ok (expect_cons ht)).trans ?_
  cases literalValue negative t <;> rfl

/-! ## Soundness -/

/-- Whatever the parser takes is a phrase of `R`. The rest of the stream may matter for `R`. -/
def Reads (x : Parser α) (R : List Token → α → TokenStream → Prop) : Prop :=
  ∀ ⦃s a s'⦄, Clean s → x s = .ok a s' → ∃ us, s = us ++ s' ∧ Clean s' ∧ R us a s'

variable {R : List Token → α → TokenStream → Prop} {f : α → Parser β} {b : β}

/-- A step that reads a phrase. -/
theorem Reads.bind_inv {x : Parser α} (hx : Reads x R) (hs : Clean s)
    (h : (x >>= f) s = .ok b s') :
    ∃ us a s₁, s = us ++ s₁ ∧ Clean s₁ ∧ R us a s₁ ∧ f a s₁ = .ok b s' := by
  obtain ⟨a, s₁, hxs, hfs⟩ := bind_eq_ok.1 h
  obtain ⟨us, rfl, hs₁, hR⟩ := hx hs hxs
  exact ⟨us, a, s₁, rfl, hs₁, hR, hfs⟩

/-- A parser of what follows the token `t`. -/
theorem Reads.after {x : Parser α} {a : α} (hx : Reads x fun us => R (t :: us)) (hs : Clean s)
    (h : x s = .ok a s') : ∃ us, cons t s = us ++ s' ∧ Clean s' ∧ R us a s' := by
  obtain ⟨us, rfl, hs', hR⟩ := hx hs h
  exact ⟨t :: us, rfl, hs', hR⟩

/-- A step that takes a token of one kind. -/
theorem expect_inv {f : Token → Parser β} (hk : k ≠ .eof) (hs : Clean s)
    (h : (expect k >>= f) s = .ok b s') :
    ∃ t s₁, s = cons t s₁ ∧ Clean s₁ ∧ t.kind = k ∧ f t s₁ = .ok b s' := by
  obtain ⟨a, s₁, hexpect, hf⟩ := bind_eq_ok.1 h
  by_cases hkind : s.head.kind = k
  · rw [expect_of_eq hkind] at hexpect
    cases hexpect
    obtain ⟨t, s₁, rfl, hs₁, ht⟩ := hs.exists_cons hk hkind
    exact ⟨t, s₁, rfl, hs₁, ht, hf⟩
  · rw [expect_of_ne hkind] at hexpect
    cases hexpect

theorem accept_eq_ok {a : Bool} (hk : k ≠ .eof) (hs : Clean s) (h : accept k s = .ok a s') :
    Clean s' ∧ ((∃ t, s = cons t s' ∧ t.kind = k ∧ a = true) ∨
      (s = s' ∧ s.head.kind ≠ k ∧ a = false)) := by
  by_cases hkind : s.head.kind = k
  · rw [accept_of_eq hkind] at h
    cases h
    obtain ⟨t, s₁, rfl, hs₁, ht⟩ := hs.exists_cons hk hkind
    exact ⟨hs₁, .inl ⟨t, rfl, ht, rfl⟩⟩
  · rw [accept_of_ne hkind] at h
    cases h
    exact ⟨hs, .inr ⟨rfl, hkind, rfl⟩⟩

/-- A step that takes a token if it is of one kind. -/
theorem accept_inv {f : Bool → Parser β} (hk : k ≠ .eof) (hs : Clean s)
    (h : (accept k >>= f) s = .ok b s') :
    (∃ t s₁, s = cons t s₁ ∧ Clean s₁ ∧ t.kind = k ∧ f true s₁ = .ok b s') ∨
      (s.head.kind ≠ k ∧ f false s = .ok b s') := by
  obtain ⟨a, s₁, haccept, hf⟩ := bind_eq_ok.1 h
  obtain ⟨hs₁, ⟨t, rfl, ht, rfl⟩ | ⟨rfl, hkind, rfl⟩⟩ := accept_eq_ok hk hs haccept
  · exact .inl ⟨t, s₁, rfl, hs₁, ht, hf⟩
  · exact .inr ⟨hkind, hf⟩

/-- A step that looks at the next token, and goes on with the parser `x`. -/
theorem peek_inv {f : Token → Parser β} (h : (peek >>= f) s = .ok b s') :
    ∃ x, x = f s.head ∧ x s = .ok b s' :=
  ⟨_, rfl, h⟩

/-- A step that looks for a token of one kind. -/
theorem sees_inv {f : Bool → Parser β} (h : (sees k >>= f) s = .ok b s') :
    (s.head.kind = k ∧ f true s = .ok b s') ∨ (s.head.kind ≠ k ∧ f false s = .ok b s') := by
  rw [bind_sees] at h
  by_cases hkind : s.head.kind = k
  · rw [decide_eq_true hkind] at h
    exact .inl ⟨hkind, h⟩
  · rw [decide_eq_false hkind] at h
    exact .inr ⟨hkind, h⟩

end Parser

end Lpl
