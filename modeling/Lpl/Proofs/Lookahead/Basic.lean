import Lpl.Proofs.Errors.Basic

/-!
# What a parser looks at

A parser is settled by the tokens that it takes and by little of the next one: it has looked for some
kinds there, and has not found them. On a stream that starts with the same tokens and goes on with any
token of another kind, it does the same. `Settles G F` says so of a parser that is entered when the kinds
`G` have been looked for in vain already. When it succeeds, the kinds `F` have been looked for at the
token it stops at.

A failure lists kinds, and is silent about those that an optional part before it would have taken. The
list tells which these can be (`ParseError.passedOver`), and no other kind of token makes a difference
to the failure. It stops where a token was not taken, or behind a literal with a faulty text.

All streams that end with an end of file are allowed here, whatever the texts of their literals are. As
with `Reports`, two parsers are compared, since the bounds on the number of tokens ahead differ.
-/

namespace Lpl

/-! ## Kinds that an error does not list -/

namespace ParseError

open Token (Kind)

/-- What may follow an operand: arguments, an index, or a length. -/
def operandTails : List Kind := [.lparen, .lbracket, .dot]

/-- What may follow an expression that has no operator yet. -/
def expressionTails : List Kind :=
  operandTails ++ [.star, .slash, .plus, .minus, .less, .lessEq, .equalTo, .andAnd, .orOr]

/-- The optional parts that may be missing from a list of alternatives: what would go on with the phrase
before, or end it, or is left out of it. -/
def passedOver (listed : List Kind) : List Kind :=
  if listed = Parser.expressionStart then [.rparen, .semicolon, .rbracket]
  else if listed = [.semicolon] ∨ listed = [.rbracket] then expressionTails
  else if listed = [.rparen] then expressionTails ++ [.comma, .kwInt]
  else if listed = [.ident] then [.lbracket]
  else if listed = [.intLiteral] then [.minus]
  else if listed = [.rbrace] ∨ listed = [.kwCase, .kwDefault] then [.kwElse]
  else if listed = Parser.statementStart ++ [.kwEnd] ∨ listed = Parser.statementStart ++ [.rbrace] then
    [.kwElse]
  else []

/-- The text of a literal is at fault. -/
def ofLiteral : ParseError → Bool
  | lexical _ => false
  | unexpected found listed => found.kind = .intLiteral ∧ listed = [.intLiteral]
  | literalOutOfRange _ _ => true

/-- The kinds that could stand in place of the offending token and are not listed. In place of a literal
any expression could stand. -/
def unlisted (e : ParseError) : List Kind :=
  if e.ofLiteral then Parser.expressionStart ++ passedOver Parser.expressionStart
  else passedOver e.expected

/-- The kinds that were looked for at the offending token. -/
def Looked (e : ParseError) (k : Kind) : Prop := k ∈ e.expected ∨ k ∈ e.unlisted

theorem ofLiteral_unexpected {t : Token} {K : List Kind} (hK : K ≠ [.intLiteral] ∨ t.kind ≠ .intLiteral) :
    (unexpected t K).ofLiteral = false := by
  unfold ofLiteral
  rcases hK with hK | hK <;> simp [hK]

theorem looked_unexpected {t : Token} {K : List Kind} {k : Kind}
    (hK : K ≠ [.intLiteral] ∨ t.kind ≠ .intLiteral) (h : k ∈ K ++ passedOver K) :
    (unexpected t K).Looked k := by
  unfold Looked unlisted
  rw [ofLiteral_unexpected hK]
  exact List.mem_append.1 h

theorem looked_of_ofLiteral {e : ParseError} {k : Kind} (he : e.ofLiteral = true)
    (h : k ∈ Parser.expressionStart ++ passedOver Parser.expressionStart) : e.Looked k := by
  unfold Looked unlisted
  rw [if_pos he]
  exact .inr h

end ParseError

/-! ## Streams that start alike -/

namespace TokenStream

open Token (Kind)

variable {n : Nat} {us vs : List Token} {K L : Kind → Prop} {s s' : TokenStream}

theorem exists_cons_of_ends {k : Kind} (hs : s.last.kind = .eof) (hk : k ≠ .eof) (h : s.head.kind = k) :
    ∃ t s₁, s = cons t s₁ ∧ s₁.last.kind = .eof ∧ t.kind = k :=
  ⟨s.head, s.tail, eq_cons_of_ends hs (h ▸ hk), hs, h⟩

/-- A stream of fewer than `n` tokens with `us` before it, whose next token is that of `s` or has none of the
kinds `K`. -/
structure Resembles (n : Nat) (us : List Token) (K : Kind → Prop) (s s' : TokenStream) : Prop where
  ends : s'.last.kind = .eof
  head : s'.head = s.head ∨ ¬ K s'.head.kind
  length_lt : us.length + s'.ahead.length < n

theorem Alike.resembles (h : Alike n us s s') : Resembles n us K s s' :=
  ⟨h.ends, .inl h.head, h.length_lt⟩

/-- Behind the first of two phrases the second comes next, unless it is empty. -/
theorem Resembles.first (h : Resembles n (us ++ vs) K s s') (hvs : vs = [] → ∀ k, L k → K k) :
    Resembles n us L (vs ++ s) (vs ++ s') := by
  have hlength := h.length_lt
  refine ⟨h.ends, ?_, ?_⟩
  · cases vs with
    | nil => exact h.head.imp_right fun hK hL => hK (hvs rfl _ hL)
    | cons t vs => exact .inl rfl
  · simp only [List.length_append] at hlength
    simp only [ahead_append, List.length_append]
    omega

theorem Resembles.second (h : Resembles n (us ++ vs) K s s') : Resembles (n - us.length) vs K s s' := by
  have hlength := h.length_lt
  simp only [List.length_append] at hlength
  exact ⟨h.ends, h.head, by omega⟩

theorem Resembles.behind {t : Token} (h : Resembles n (t :: us) K s s') : Resembles (n - 1) us K s s' :=
  second (show Resembles n ([t] ++ us) K s s' from h)

theorem Alike.behind {t : Token} (h : Alike n (t :: us) s s') : Alike (n - 1) us s s' :=
  second (show Alike n ([t] ++ us) s s' from h)

end TokenStream

namespace Parser

open TokenStream
open Token (Kind)

variable {α β : Type} {n : Nat} {G G' : Kind → Prop} {s : TokenStream} {k : Kind}

/-- The error is about the next token of `s`, and the parser stands at that token, or behind it if it is
a literal with a faulty text. -/
structure MetAt (e : ParseError) (s s₁ : TokenStream) : Prop where
  found : e.found? = some s.head
  stands : s = if e.ofLiteral then cons s.head s₁ else s₁

theorem MetAt.unique {e : ParseError} {s s' s₁ : TokenStream} (h : MetAt e s s₁) (h' : MetAt e s' s₁) :
    s = s' := by
  have hhead : s.head = s'.head := Option.some.inj (h.found.symm.trans h'.found)
  rw [h.stands, h'.stands, hhead]

theorem MetAt.length {e : ParseError} {s s₁ : TokenStream} (h : MetAt e s s₁) :
    s.ahead.length = (if e.ofLiteral then 1 else 0) + s₁.ahead.length := by
  have hstands := congrArg (fun s' : TokenStream => s'.ahead.length) h.stands
  by_cases hliteral : e.ofLiteral
  · simp only [if_pos hliteral, length_cons] at hstands ⊢
    omega
  · simp only [if_neg hliteral] at hstands ⊢
    omega

/-- What the parser `x` does with the stream, having looked for the kinds `G` at its next token, is what
`x'` does with the streams of fewer than `n` tokens that start in the same way. At the token behind these,
`x` has looked for the kinds `F` if it succeeds: they depend on what was read. It fails for its tokens
alone, and never because a bound is used up. -/
structure Settles (n : Nat) (G : Kind → Prop) (F : α → TokenStream → Kind → Prop) (x x' : Parser α)
    (s : TokenStream) : Prop where
  ok : ∀ ⦃a s₁⦄, x s = .ok a s₁ → ∃ us, s = us ++ s₁ ∧ (us = [] → ∀ k, G k → F a s₁ k) ∧
    ∀ s₁', Resembles n us (F a s₁) s₁ s₁' → x' (us ++ s₁') = .ok a s₁'
  error : ∀ ⦃h s₁⦄, x s = .error h s₁ → ∃ us, s = us ++ s₁ ∧
    ∀ s₁', Alike n us s₁ s₁' → x' (us ++ s₁') = .error h s₁'
  blame : ∀ ⦃h s₁⦄, x s = .error h s₁ → ∃ e us s₀, h = .rejected e ∧ s = us ++ s₀ ∧ MetAt e s₀ s₁ ∧
    (us = [] → ∀ k, G k → e.Looked k) ∧
    ∀ s₀', Resembles n us e.Looked s₀ s₀' → ∃ h' s', x' (us ++ s₀') = .error h' s'

namespace Settles

variable {F F' : α → TokenStream → Kind → Prop} {x x' y y' : Parser α} {m : Nat} {t : Token}

theorem mono (h : Settles n G F x x' s) (hm : m ≤ n) : Settles m G F x x' s where
  ok _ _ hx := by
    obtain ⟨us, rfl, hnil, htransfer⟩ := h.ok hx
    exact ⟨us, rfl, hnil, fun s₁' hs₁' =>
      htransfer s₁' ⟨hs₁'.ends, hs₁'.head, Nat.lt_of_lt_of_le hs₁'.length_lt hm⟩⟩
  error _ _ hx := by
    obtain ⟨us, rfl, htransfer⟩ := h.error hx
    exact ⟨us, rfl, fun s₁' hs₁' =>
      htransfer s₁' ⟨hs₁'.ends, hs₁'.head, Nat.lt_of_lt_of_le hs₁'.length_lt hm⟩⟩
  blame _ _ hx := by
    obtain ⟨e, us, s₀, rfl, rfl, hmet, hnil, htransfer⟩ := h.blame hx
    exact ⟨e, us, s₀, rfl, rfl, hmet, hnil, fun s₀' hs₀' =>
      htransfer s₀' ⟨hs₀'.ends, hs₀'.head, Nat.lt_of_lt_of_le hs₀'.length_lt hm⟩⟩

/-- To have looked for fewer kinds before, or for more in the end, says less. -/
theorem weaken (h : Settles n G F x x' s) (hG : ∀ k, G' k → G k)
    (hF : ∀ a s k, F a s k → F' a s k) : Settles n G' F' x x' s where
  ok a s₁ hx := by
    obtain ⟨us, rfl, hnil, htransfer⟩ := h.ok hx
    refine ⟨us, rfl, fun hus k hk => hF a s₁ k (hnil hus k (hG k hk)), fun s₁' hs₁' => ?_⟩
    exact htransfer s₁'
      ⟨hs₁'.ends, hs₁'.head.imp_right fun hne hk => hne (hF a s₁ _ hk), hs₁'.length_lt⟩
  error := h.error
  blame _ _ hx := by
    obtain ⟨e, us, s₀, rfl, rfl, hmet, hnil, htransfer⟩ := h.blame hx
    exact ⟨e, us, s₀, rfl, rfl, hmet, fun hus k hk => hnil hus k (hG k hk), htransfer⟩

/-! ### Steps -/

/-- A step that takes no token, and looks whether the next one has a kind in `K`. -/
theorem look {K : Kind → Prop} (hx : x s = y s) (hsame : ∀ s', s'.head = s.head → x' s' = y' s')
    (hother : ∀ s', ¬ K s'.head.kind → x' s' = y' s')
    (h : Settles n (fun k => G k ∨ K k) F y y' s) : Settles n G F x x' s := by
  -- Where nothing is taken, the other stream may start with another token, but with none of a kind in `K`.
  have hstep : ∀ {us : List Token} {s₀ s₀' : TokenStream} {L : Kind → Prop}, s = us ++ s₀ →
      (us = [] → ∀ k, G k ∨ K k → L k) → Resembles n us L s₀ s₀' → x' (us ++ s₀') = y' (us ++ s₀') := by
    rintro us s₀ s₀' L rfl hnil hs₀'
    cases us with
    | nil => exact hs₀'.head.elim (hsame _) fun hne => hother _ fun hk => hne (hnil rfl _ (.inr hk))
    | cons t us => exact hsame _ rfl
  constructor
  · intro a s₁ hok
    obtain ⟨us, hus, hnil, htransfer⟩ := h.ok (hx ▸ hok)
    refine ⟨us, hus, fun hus k hk => hnil hus k (.inl hk), fun s₁' hs₁' => ?_⟩
    rw [hstep hus hnil hs₁']
    exact htransfer s₁' hs₁'
  · intro h' s₁ herror
    obtain ⟨us, rfl, htransfer⟩ := h.error (hx ▸ herror)
    refine ⟨us, rfl, fun s₁' hs₁' => ?_⟩
    rw [hsame _ (head_append hs₁'.head)]
    exact htransfer s₁' hs₁'
  · intro h' s₁ herror
    obtain ⟨e, us, s₀, rfl, hus, hmet, hnil, htransfer⟩ := h.blame (hx ▸ herror)
    refine ⟨e, us, s₀, rfl, hus, hmet, fun hus k hk => hnil hus k (.inl hk), fun s₀' hs₀' => ?_⟩
    rw [hstep hus hnil hs₀']
    exact htransfer s₀' hs₀'

/-- A step that takes no token, and depends on the next one in some way. -/
theorem decided (hx : x s = y s) (hsame : ∀ s', s'.head = s.head → x' s' = y' s')
    (h : Settles n (fun _ => True) F y y' s) : Settles n G F x x' s :=
  look (K := fun _ => True) hx hsame (fun _ hs' => absurd trivial hs')
    (h.weaken (fun _ _ => trivial) fun _ _ _ => id)

/-- A step that takes a token. What was looked for there does not matter any more. -/
theorem take (hx : x (cons t s) = y s) (hx' : ∀ s', x' (cons t s') = y' s')
    (h : Settles (n - 1) (fun _ => False) F y y' s) : Settles n G F x x' (cons t s) where
  ok _ _ hok := by
    obtain ⟨us, rfl, -, htransfer⟩ := h.ok (hx ▸ hok)
    refine ⟨t :: us, rfl, fun hus => absurd hus (List.cons_ne_nil _ _), fun s₁' hs₁' => ?_⟩
    rw [cons_append, hx']
    exact htransfer s₁' hs₁'.behind
  error _ _ herror := by
    obtain ⟨us, rfl, htransfer⟩ := h.error (hx ▸ herror)
    refine ⟨t :: us, rfl, fun s₁' hs₁' => ?_⟩
    rw [cons_append, hx']
    exact htransfer s₁' hs₁'.behind
  blame _ _ herror := by
    obtain ⟨e, us, s₀, rfl, rfl, hmet, -, htransfer⟩ := h.blame (hx ▸ herror)
    refine ⟨e, t :: us, s₀, rfl, rfl, hmet, fun hus => absurd hus (List.cons_ne_nil _ _), fun s₀' hs₀' => ?_⟩
    rw [cons_append, hx']
    exact htransfer s₀' hs₀'.behind

/-- A parser and what follows it. If the first takes nothing, what was looked for before it still
counts. -/
theorem bind {f f' : α → Parser β} {F' : β → TokenStream → Kind → Prop} (hx : Settles n G F x x' s)
    (hf : ∀ (us : List Token) a s₁, s = us ++ s₁ → (us = [] → ∀ k, G k → F a s₁ k) →
      Settles (n - us.length) (F a s₁) F' (f a) (f' a) s₁) :
    Settles n G F' (x >>= f) (x' >>= f') s where
  ok b s₂ h := by
    obtain ⟨a, s₁, hxs, hfs⟩ := bind_eq_ok.1 h
    obtain ⟨us, rfl, hnil, hthen⟩ := hx.ok hxs
    obtain ⟨vs, rfl, hnil', htransfer⟩ := (hf us a s₁ rfl hnil).ok hfs
    refine ⟨us ++ vs, by simp, fun husvs k hk => ?_, fun s₂' hs₂' => ?_⟩
    · obtain ⟨hus, hvs⟩ := List.append_eq_nil_iff.1 husvs
      exact hnil' hvs k (hnil hus k hk)
    · rw [append_append, bind_ok (hthen _ (hs₂'.first hnil'))]
      exact htransfer s₂' hs₂'.second
  error h' s₂ h := by
    obtain hxs | ⟨a, s₁, hxs, hfs⟩ := bind_eq_error h
    · obtain ⟨us, rfl, htransfer⟩ := hx.error hxs
      exact ⟨us, rfl, fun s₁' hs₁' => bind_error (htransfer s₁' hs₁')⟩
    · obtain ⟨us, rfl, hnil, hthen⟩ := hx.ok hxs
      obtain ⟨vs, rfl, htransfer⟩ := (hf us a s₁ rfl hnil).error hfs
      refine ⟨us ++ vs, by simp, fun s₂' hs₂' => ?_⟩
      rw [append_append, bind_ok (hthen _ hs₂'.first.resembles)]
      exact htransfer s₂' hs₂'.second
  blame h' s₂ h := by
    obtain hxs | ⟨a, s₁, hxs, hfs⟩ := bind_eq_error h
    · obtain ⟨e, us, s₀, rfl, rfl, hmet, hnil, htransfer⟩ := hx.blame hxs
      refine ⟨e, us, s₀, rfl, rfl, hmet, hnil, fun s₀' hs₀' => ?_⟩
      obtain ⟨e', s', hx'⟩ := htransfer s₀' hs₀'
      exact ⟨e', s', bind_error hx'⟩
    · obtain ⟨us, rfl, hnil, hthen⟩ := hx.ok hxs
      obtain ⟨e, vs, s₀, rfl, rfl, hmet, hnil', htransfer⟩ := (hf us a s₁ rfl hnil).blame hfs
      refine ⟨e, us ++ vs, s₀, rfl, by simp, hmet, fun husvs k hk => ?_, fun s₀' hs₀' => ?_⟩
      · obtain ⟨hus, hvs⟩ := List.append_eq_nil_iff.1 husvs
        exact hnil' hvs k (hnil hus k hk)
      · rw [append_append, bind_ok (hthen _ (hs₀'.first hnil'))]
        exact htransfer s₀' hs₀'.second

/-! ### Ends -/

theorem pure (a : α) (hF : ∀ k, G k → F a s k) : Settles n G F (Pure.pure a) (Pure.pure a) s where
  ok _ _ hok := by
    cases hok
    exact ⟨[], rfl, fun _ => hF, fun _ _ => rfl⟩
  error _ _ herror := by cases herror
  blame _ _ herror := by cases herror

/-- A parser that fails at the next token, and so it does at any other that it does not look for. -/
theorem fails {K : List Kind} (hx : x s = Parser.unexpected K s)
    (hx' : ∀ s', s'.head = s.head ∨ s'.head.kind ∉ K → x' s' = Parser.unexpected K s')
    (hK : K ≠ [.intLiteral] ∨ s.head.kind ≠ .intLiteral)
    (hG : ∀ k, G k → k ∈ K ++ ParseError.passedOver K) : Settles n G F x x' s where
  ok _ _ hok := by
    rw [hx] at hok
    cases hok
  error _ _ herror := by
    rw [hx] at herror
    cases herror
    refine ⟨[], rfl, fun s₁' hs₁' => ?_⟩
    rw [nil_append, hx' s₁' (.inl hs₁'.head), unexpected_eq, hs₁'.head]
  blame _ _ herror := by
    rw [hx] at herror
    cases herror
    refine ⟨_, [], s, rfl, rfl, ⟨rfl, by rw [ParseError.ofLiteral_unexpected hK]; rfl⟩, fun _ k hk => ?_,
      fun s₀' hs₀' => ?_⟩
    · exact ParseError.looked_unexpected hK (hG k hk)
    · refine ⟨_, s₀', hx' s₀' (hs₀'.head.imp_right fun hne hk => hne ?_)⟩
      exact ParseError.looked_unexpected hK (List.mem_append_left _ hk)

theorem unexpected {K : List Kind} (hK : K ≠ [.intLiteral])
    (hG : ∀ k, G k → k ∈ K ++ ParseError.passedOver K) :
    Settles n G F (Parser.unexpected (α := α) K) (Parser.unexpected K) s :=
  fails rfl (fun _ _ => rfl) (.inl hK) hG

/-- A parser that takes a literal and fails over its text. It fails at a token that starts no
expression. -/
theorem faulty {e : ParseError} (ht : t.kind ≠ .eof) (hfound : e.found? = some t)
    (hliteral : e.ofLiteral = true) (hx : x (cons t s) = .error (.rejected e) s)
    (hx' : ∀ s', x' (cons t s') = .error (.rejected e) s')
    (hother : ∀ s' : TokenStream, s'.head.kind ∉ Parser.expressionStart → ∃ h s'', x' s' = .error h s'')
    (hG : ∀ k, G k → k ∈ Parser.expressionStart ++ ParseError.passedOver Parser.expressionStart) :
    Settles n G F x x' (cons t s) where
  ok _ _ hok := by
    rw [hx] at hok
    cases hok
  error _ _ herror := by
    rw [hx] at herror
    cases herror
    exact ⟨[t], rfl, fun s₁' _ => hx' s₁'⟩
  blame _ _ herror := by
    rw [hx] at herror
    cases herror
    refine ⟨e, [], cons t s, rfl, rfl, ⟨hfound, by rw [hliteral]; rfl⟩, fun _ k hk => ?_, fun s₀' hs₀' => ?_⟩
    · exact ParseError.looked_of_ofLiteral hliteral (hG k hk)
    · rcases hs₀'.head with hhead | hne
      · have hcons := eq_cons_of_ends hs₀'.ends (by rw [hhead]; exact ht)
        rw [nil_append, hcons, hhead]
        exact ⟨_, _, hx' _⟩
      · refine hother s₀' fun hk => hne ?_
        exact ParseError.looked_of_ofLiteral hliteral (List.mem_append_left _ hk)

/-- The result of a parser, put into another form. -/
theorem map {g : α → β} {F' : β → TokenStream → Kind → Prop} (h : Settles n G F x x' s)
    (hF : ∀ a s k, F a s k → F' (g a) s k) :
    Settles n G F' (x >>= fun a => Pure.pure (g a)) (x' >>= fun a => Pure.pure (g a)) s :=
  h.bind fun _ a s₁ _ _ => pure (g a) (hF a s₁)

/-! ### Single tokens -/

section Tokens

variable {f f' : Token → Parser β} {g g' : Bool → Parser β} {F : β → TokenStream → Kind → Prop}

theorem next {x x' : Parser β} (h : Settles (n - 1) (fun _ => False) F x x' s) :
    Settles n G F (Parser.next >>= fun _ => x) (Parser.next >>= fun _ => x') (cons t s) :=
  take rfl (fun _ => rfl) h

theorem expect (hk : k ≠ .eof) (hs : s.last.kind = .eof)
    (hG : s.head.kind ≠ k → ∀ k', G k' → k' ∈ [k] ++ ParseError.passedOver [k])
    (hf : ∀ t s₁, s = cons t s₁ → s₁.last.kind = .eof → t.kind = k →
      Settles (n - 1) (fun _ => False) F (f t) (f' t) s₁) :
    Settles n G F (Parser.expect k >>= f) (Parser.expect k >>= f') s := by
  by_cases hkind : s.head.kind = k
  · obtain ⟨t, s₁, rfl, hs₁, ht⟩ := exists_cons_of_ends hs hk hkind
    exact take (bind_ok (expect_cons ht)) (fun _ => bind_ok (expect_cons ht)) (hf t s₁ rfl hs₁ ht)
  · have hother : ∀ s' : TokenStream, s'.head = s.head ∨ s'.head.kind ∉ [k] → s'.head.kind ≠ k := by
      rintro s' (hs' | hs')
      · rwa [hs']
      · simpa using hs'
    refine fails (bind_error (expect_of_ne hkind))
      (fun s' hs' => bind_error (expect_of_ne (hother s' hs'))) ?_ (hG hkind)
    by_cases hliteral : k = .intLiteral
    · exact .inr (hliteral ▸ hkind)
    · exact .inl (by simpa using hliteral)

theorem accept (hk : k ≠ .eof) (hs : s.last.kind = .eof)
    (htrue : ∀ t s₁, s = cons t s₁ → s₁.last.kind = .eof → t.kind = k →
      Settles (n - 1) (fun _ => False) F (g true) (g' true) s₁)
    (hfalse : s.head.kind ≠ k → Settles n (fun k' => G k' ∨ k' = k) F (g false) (g' false) s) :
    Settles n G F (Parser.accept k >>= g) (Parser.accept k >>= g') s := by
  by_cases hkind : s.head.kind = k
  · obtain ⟨t, s₁, rfl, hs₁, ht⟩ := exists_cons_of_ends hs hk hkind
    exact take (bind_ok (accept_cons ht)) (fun _ => bind_ok (accept_cons ht)) (htrue t s₁ rfl hs₁ ht)
  · refine look (bind_ok (accept_of_ne hkind)) (fun s' hs' => ?_) (fun s' hs' => ?_) (hfalse hkind)
    · exact bind_ok (accept_of_ne (hs' ▸ hkind))
    · exact bind_ok (accept_of_ne hs')

theorem sees (htrue : s.head.kind = k → Settles n (fun _ => True) F (g true) (g' true) s)
    (hfalse : s.head.kind ≠ k → Settles n (fun k' => G k' ∨ k' = k) F (g false) (g' false) s) :
    Settles n G F (Parser.sees k >>= g) (Parser.sees k >>= g') s := by
  by_cases hkind : s.head.kind = k
  · refine decided ?_ (fun s' hs' => ?_) (htrue hkind)
    · rw [bind_sees, decide_eq_true hkind]
    · rw [bind_sees, hs', decide_eq_true hkind]
  · refine look ?_ (fun s' hs' => ?_) (fun s' hs' => ?_) (hfalse hkind)
    · rw [bind_sees, decide_eq_false hkind]
    · rw [bind_sees, hs', decide_eq_false hkind]
    · rw [bind_sees, decide_eq_false hs']

/-- The next token decides how to go on. -/
theorem peek (h : Settles n (fun _ => True) F (f s.head) (f' s.head) s) :
    Settles n G F (Parser.peek >>= f) (Parser.peek >>= f') s := by
  refine decided ?_ (fun s' hs' => ?_) h
  · rw [bind_peek]
  · rw [bind_peek, hs']

/-- A phrase, and a token that has to follow it. -/
theorem closed {f f' : α → Token → Parser β} (hx : Settles n G F' x x' s) (hk : k ≠ .eof)
    (hs : s.last.kind = .eof)
    (hF' : ∀ a s₁, s₁.head.kind ≠ k → ∀ k', F' a s₁ k' → k' ∈ [k] ++ ParseError.passedOver [k])
    (hf : ∀ (us : List Token) a t s₁, s = us ++ cons t s₁ → s₁.last.kind = .eof → t.kind = k →
      Settles (n - us.length - 1) (fun _ => False) F (f a t) (f' a t) s₁) :
    Settles n G F (x >>= fun a => Parser.expect k >>= f a) (x' >>= fun a => Parser.expect k >>= f' a)
      s := by
  refine hx.bind ?_
  rintro us a s₁ rfl -
  refine expect hk hs (hF' a s₁) ?_
  rintro t s₂ rfl hs₂ ht
  exact hf us a t s₂ rfl hs₂ ht

end Tokens

/-! ### Bounds -/

/-- A parser that does the same as `y` at every token that it does not look for. -/
theorem idle {K : List Kind} (hs : s.head.kind ∉ K)
    (hx : ∀ {s' : TokenStream}, s'.head.kind ∉ K → x s' = y s')
    (hx' : ∀ {s' : TokenStream}, s'.head.kind ∉ K → x' s' = y s')
    (h : Settles n (fun k => G k ∨ k ∈ K) F y y s) : Settles n G F x x' s :=
  look (hx hs) (fun _ hs' => hx' (hs' ▸ hs)) (fun _ hs' => hx' hs') h

/-- A parser that fails at every token but those it lists. -/
theorem unstarted {K : List Kind} (hs : s.head.kind ∉ K)
    (hx : ∀ {s' : TokenStream}, s'.head.kind ∉ K → x s' = Parser.unexpected K s')
    (hx' : ∀ {s' : TokenStream}, s'.head.kind ∉ K → x' s' = Parser.unexpected K s')
    (hK : K ≠ [.intLiteral]) (hG : ∀ k, G k → k ∈ K ++ ParseError.passedOver K) :
    Settles n G F x x' s := by
  refine idle hs hx hx' (unexpected hK ?_)
  rintro k (hk | hk)
  · exact hG k hk
  · exact List.mem_append_left _ hk

/-- No stream has fewer than no tokens, so the bound may be taken to be positive. -/
theorem of_succ {f : Nat → Parser α} (hm : n ≤ m) (h : ∀ m, n ≤ m + 1 → Settles n G F x (f (m + 1)) s) :
    Settles n G F x (f m) s := by
  cases m with
  | succ m => exact h m hm
  | zero =>
    obtain rfl := Nat.le_zero.1 hm
    have hone := h 0 (Nat.zero_le 1)
    constructor
    · intro a s₁ hx
      obtain ⟨us, rfl, hnil, -⟩ := hone.ok hx
      exact ⟨us, rfl, hnil, fun s₁' hs₁' => absurd hs₁'.length_lt (Nat.not_lt_zero _)⟩
    · intro h' s₁ hx
      obtain ⟨us, rfl, -⟩ := hone.error hx
      exact ⟨us, rfl, fun s₁' hs₁' => absurd hs₁'.length_lt (Nat.not_lt_zero _)⟩
    · intro h' s₁ hx
      obtain ⟨e, us, s₀, rfl, rfl, hmet, hnil, -⟩ := hone.blame hx
      exact ⟨e, us, s₀, rfl, rfl, hmet, hnil, fun s₀' hs₀' =>
        absurd hs₀'.length_lt (Nat.not_lt_zero _)⟩

end Settles

end Parser

end Lpl
