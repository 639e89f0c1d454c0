import Lpl.Proofs.Parsing.Soundness

/-!
# Where parsers fail

A parser fails at a token that it looks at, and has read the tokens before it. `Reports` says two things
of the place.

- The tokens that were read can be completed, and with each kind of token that the error lists. What can
  be completed to what is said by a `TokenLanguage`: the token lists that the parser and all that comes
  after it may read. After each step, it is the language that follows the tokens of the step.
- The tokens that were read, and the one looked at, settle the failure. The same parser fails in the same
  way on every stream that starts with them. The bounds on the number of tokens ahead are other ones
  there, and so there are two parsers to compare.

A parser that succeeds is settled in the same way by the tokens it read and the next one. With that, what
a parser reports is found step by step (`Reports.bind`, `Reports.take`, `Reports.look`).
-/

namespace Lpl

/-- Some token of the kind. A literal is zero. -/
def Token.sample (k : Token.Kind) : Token := ⟨k, "0", .start⟩

theorem Token.kind_sample (k : Token.Kind) : (Token.sample k).kind = k := rfl

/-! ## Languages -/

/-- The token lists that may be read. -/
abbrev TokenLanguage := List Token → Prop

namespace TokenLanguage

open Token (sample)

variable {α : Type} {P : Grammar.Phrase α} {L : TokenLanguage} {us vs : List Token} {K : List Token.Kind}
  {k : Token.Kind}

/-- What may be read behind the tokens `us`. -/
def after (us : List Token) (L : TokenLanguage) : TokenLanguage := fun vs => L (us ++ vs)

theorem after_after : after vs (after us L) = after (us ++ vs) L := by
  funext ws
  simp [after]

/-- Every phrase can be completed. -/
def Continues (P : Grammar.Phrase α) (L : TokenLanguage) : Prop := ∀ ⦃us a⦄, P us a → ∃ vs, L (us ++ vs)

/-- Every phrase can be completed with a token of kind `k` as the next. -/
def Follows (k : Token.Kind) (P : Grammar.Phrase α) (L : TokenLanguage) : Prop :=
  ∀ ⦃us a⦄, P us a → ∃ vs, L (us ++ sample k :: vs)

theorem Follows.continues (h : Follows k P L) : Continues P L := fun _ _ ha =>
  (h ha).imp' (sample k :: ·) fun _ hvs => hvs

/-- Tokens that can be completed, and with each of the kinds `K` as the next. The end of the file is next
if nothing is missing. -/
structure Leads (L : TokenLanguage) (us : List Token) (K : List Token.Kind) : Prop where
  viable : ∃ vs, L (us ++ vs)
  expected : ∀ k ∈ K, if k = .eof then L us else ∃ t vs, t.kind = k ∧ L (us ++ t :: vs)

theorem Leads.append (h : Leads (after us L) vs K) : Leads L (us ++ vs) K := by
  have hviable := h.viable
  have hexpected := h.expected
  simp only [after, ← List.append_assoc] at hviable hexpected
  exact ⟨hviable, hexpected⟩

/-- Kinds that each start something. -/
theorem leads_nil (hne : K ≠ []) (hK : ∀ k ∈ K, k ≠ .eof ∧ ∃ vs, L (sample k :: vs)) :
    Leads L [] K := by
  refine ⟨?_, fun k hk => ?_⟩
  · obtain ⟨k, hk⟩ := List.exists_mem_of_ne_nil K hne
    obtain ⟨-, vs, h⟩ := hK k hk
    exact ⟨sample k :: vs, h⟩
  · obtain ⟨heof, vs, h⟩ := hK k hk
    rw [if_neg heof]
    exact ⟨sample k, vs, rfl, h⟩

theorem leads_one (hk : k ≠ .eof) (h : ∃ vs, L (sample k :: vs)) : Leads L [] [k] :=
  leads_nil (List.cons_ne_nil _ _) (by simpa using ⟨hk, h⟩)

end TokenLanguage

namespace TokenStream

variable {us vs : List Token} {s s' : TokenStream}

theorem head_append (h : s'.head = s.head) : (us ++ s').head = (us ++ s).head := by
  cases us with
  | nil => exact h
  | cons t us => rfl

theorem append_right_cancel (h : us ++ s = vs ++ s) : us = vs :=
  List.append_cancel_right (congrArg ahead h)

@[simp] theorem length_cons {t : Token} : (cons t s).ahead.length = s.ahead.length + 1 := rfl

@[simp] theorem ahead_append : (us ++ s).ahead = us ++ s.ahead := rfl

@[simp] theorem last_append : (us ++ s).last = s.last := rfl

/-- Of two ways to take a stream apart, one is finer. -/
theorem exists_append_of_length_le (h : us ++ s = vs ++ s')
    (hle : s'.ahead.length ≤ s.ahead.length) : ∃ ws, vs = us ++ ws ∧ s = ws ++ s' := by
  have hahead : us ++ s.ahead = vs ++ s'.ahead := congrArg ahead h
  have hlast : (us ++ s).last = (vs ++ s').last := congrArg last h
  rw [last_append, last_append] at hlast
  obtain ⟨ws, hvs, hs⟩ | ⟨ws, rfl, hs'⟩ := List.append_eq_append_iff.1 hahead
  · refine ⟨ws, hvs, ?_⟩
    show s = ⟨ws ++ s'.ahead, s'.last⟩
    rw [← hs, ← hlast]
  · rw [hs', List.length_append] at hle
    obtain rfl := List.length_eq_zero_iff.1 (show ws.length = 0 by omega)
    refine ⟨[], by simp, ?_⟩
    show s = ⟨s'.ahead, s'.last⟩
    rw [hs', ← hlast]
    rfl

/-- A stream whose next token is no end of file starts with that token. -/
theorem eq_cons_of_ends (hs : s.last.kind = .eof) (h : s.head.kind ≠ .eof) :
    s = cons s.head s.tail := by
  obtain ⟨ahead, last⟩ := s
  cases ahead with
  | nil => exact absurd hs h
  | cons t ts => rfl

/-- A stream with the next token of `s`, that has fewer than `n` tokens with `us` before it. -/
structure Alike (n : Nat) (us : List Token) (s s' : TokenStream) : Prop where
  ends : s'.last.kind = .eof
  head : s'.head = s.head
  length_lt : us.length + s'.ahead.length < n

/-- Streams that agree behind two phrases agree behind the first. -/
theorem Alike.first {n : Nat} (h : Alike n (us ++ vs) s s') : Alike n us (vs ++ s) (vs ++ s') := by
  have hlength := h.length_lt
  refine ⟨h.ends, head_append h.head, ?_⟩
  simp only [List.length_append] at hlength
  simp only [ahead_append, List.length_append]
  omega

theorem Alike.second {n : Nat} (h : Alike n (us ++ vs) s s') : Alike (n - us.length) vs s s' := by
  have hlength := h.length_lt
  simp only [List.length_append] at hlength
  exact ⟨h.ends, h.head, by omega⟩

end TokenStream

namespace Parser

open TokenStream TokenLanguage
open Token (sample)

variable {α β : Type} {n : Nat} {L : TokenLanguage} {s : TokenStream} {k : Token.Kind}

/-- What the parser `x` does with the stream, and that `x'` does the same with every stream of fewer than
`n` tokens that starts in the same way. It never stops but for the tokens. -/
structure Reports (n : Nat) (L : TokenLanguage) (x x' : Parser α) (s : TokenStream) : Prop where
  ok : ∀ ⦃a s₁⦄, x s = .ok a s₁ →
    ∃ us, s = us ++ s₁ ∧ ∀ s₁', Alike n us s₁ s₁' → x' (us ++ s₁') = .ok a s₁'
  error : ∀ ⦃h s₁⦄, x s = .error h s₁ →
    ∃ e us s₀, h = .rejected e ∧ s = us ++ s₀ ∧ e.found? = some s₀.head ∧ Leads L us e.expected ∧
      ∀ s₀', Alike n us s₀ s₀' → ∃ s₁', x' (us ++ s₀') = .error (.rejected e) s₁'

theorem bind_error {x : Parser α} {f : α → Parser β} {e : ParseStop} {s' : TokenStream}
    (h : x s = .error e s') : (x >>= f) s = .error e s' := by
  show EStateM.bind x f s = _
  simp only [EStateM.bind, h]

theorem bind_eq_error {x : Parser α} {f : α → Parser β} {e : ParseStop} {s' : TokenStream}
    (h : (x >>= f) s = .error e s') :
    x s = .error e s' ∨ ∃ a s₁, x s = .ok a s₁ ∧ f a s₁ = .error e s' := by
  cases hx : x s with
  | ok a s₁ => exact .inr ⟨a, s₁, rfl, (bind_ok hx).symm.trans h⟩
  | error e' s₁ =>
    rw [bind_error hx] at h
    cases h
    exact .inl rfl

namespace Reports

variable {x x' y y' : Parser α} {m : Nat} {t : Token}

theorem mono (h : Reports n L x x' s) (hm : m ≤ n) : Reports m L x x' s where
  ok _ _ hx := by
    obtain ⟨us, rfl, htransfer⟩ := h.ok hx
    exact ⟨us, rfl, fun s₁' hs₁' => htransfer s₁' ⟨hs₁'.ends, hs₁'.head, Nat.lt_of_lt_of_le hs₁'.length_lt hm⟩⟩
  error _ _ hx := by
    obtain ⟨e, us, s₀, rfl, rfl, hfound, hleads, htransfer⟩ := h.error hx
    exact ⟨e, us, s₀, rfl, rfl, hfound, hleads, fun s₀' hs₀' =>
      htransfer s₀' ⟨hs₀'.ends, hs₀'.head, Nat.lt_of_lt_of_le hs₀'.length_lt hm⟩⟩

/-! ### Steps -/

/-- A step that takes no token. -/
theorem look (hx : x s = y s) (hx' : ∀ s', s'.head = s.head → x' s' = y' s')
    (h : Reports n L y y' s) : Reports n L x x' s where
  ok _ _ hok := by
    obtain ⟨us, rfl, htransfer⟩ := h.ok (hx ▸ hok)
    refine ⟨us, rfl, fun s₁' hs₁' => ?_⟩
    rw [hx' _ (head_append hs₁'.head)]
    exact htransfer s₁' hs₁'
  error _ _ herror := by
    obtain ⟨e, us, s₀, rfl, rfl, hfound, hleads, htransfer⟩ := h.error (hx ▸ herror)
    refine ⟨e, us, s₀, rfl, rfl, hfound, hleads, fun s₀' hs₀' => ?_⟩
    rw [hx' _ (head_append hs₀'.head)]
    exact htransfer s₀' hs₀'

/-- A step that takes a token, and may look at the next. -/
theorem take (hx : x (cons t s) = y s) (hx' : ∀ s', s'.head = s.head → x' (cons t s') = y' s')
    (h : Reports (n - 1) (after [t] L) y y' s) : Reports n L x x' (cons t s) where
  ok _ _ hok := by
    obtain ⟨us, rfl, htransfer⟩ := h.ok (hx ▸ hok)
    refine ⟨t :: us, rfl, fun s₁' hs₁' => ?_⟩
    have hlength := hs₁'.length_lt
    rw [cons_append, hx' _ (head_append hs₁'.head)]
    exact htransfer s₁' ⟨hs₁'.ends, hs₁'.head, by simp only [List.length_cons] at hlength; omega⟩
  error _ _ herror := by
    obtain ⟨e, us, s₀, rfl, rfl, hfound, hleads, htransfer⟩ := h.error (hx ▸ herror)
    refine ⟨e, t :: us, s₀, rfl, rfl, hfound, hleads.append, fun s₀' hs₀' => ?_⟩
    have hlength := hs₀'.length_lt
    rw [cons_append, hx' _ (head_append hs₀'.head)]
    exact htransfer s₀' ⟨hs₀'.ends, hs₀'.head, by simp only [List.length_cons] at hlength; omega⟩

/-- A parser, and what follows the phrase it reads. -/
theorem bind {x x' : Parser α} {f f' : α → Parser β} {R : List Token → α → TokenStream → Prop}
    (hread : Reads x R) (hs : Clean s) (hx : Reports n L x x' s)
    (hf : ∀ us a s₁, s = us ++ s₁ → Clean s₁ → R us a s₁ →
      Reports (n - us.length) (after us L) (f a) (f' a) s₁) :
    Reports n L (x >>= f) (x' >>= f') s := by
  have hstep : ∀ a s₁, x s = .ok a s₁ → ∃ us, s = us ++ s₁ ∧
      Reports (n - us.length) (after us L) (f a) (f' a) s₁ ∧
      ∀ s₁', Alike n us s₁ s₁' → (x' >>= f') (us ++ s₁') = f' a s₁' := by
    intro a s₁ hxs
    obtain ⟨us, heq, htransfer⟩ := hx.ok hxs
    obtain ⟨vs, rfl, hs₁, hR⟩ := hread hs hxs
    obtain rfl := append_right_cancel heq
    exact ⟨vs, rfl, hf vs a s₁ rfl hs₁ hR, fun s₁' hs₁' => bind_ok (htransfer s₁' hs₁')⟩
  constructor
  · intro b s₂ h
    obtain ⟨a, s₁, hxs, hfs⟩ := bind_eq_ok.1 h
    obtain ⟨us, rfl, hrest, hthen⟩ := hstep a s₁ hxs
    obtain ⟨vs, rfl, htransfer⟩ := hrest.ok hfs
    refine ⟨us ++ vs, by simp, fun s₂' hs₂' => ?_⟩
    rw [append_append, hthen _ hs₂'.first]
    exact htransfer s₂' hs₂'.second
  · intro h' s₂ h
    obtain hxs | ⟨a, s₁, hxs, hfs⟩ := bind_eq_error h
    · obtain ⟨e, us, s₀, rfl, rfl, hfound, hleads, htransfer⟩ := hx.error hxs
      refine ⟨e, us, s₀, rfl, rfl, hfound, hleads, fun s₀' hs₀' => ?_⟩
      obtain ⟨s₁', hx'⟩ := htransfer s₀' hs₀'
      exact ⟨s₁', bind_error hx'⟩
    · obtain ⟨us, rfl, hrest, hthen⟩ := hstep a s₁ hxs
      obtain ⟨e, vs, s₀, rfl, rfl, hfound, hleads, htransfer⟩ := hrest.error hfs
      refine ⟨e, us ++ vs, s₀, rfl, by simp, hfound, hleads.append, fun s₀' hs₀' => ?_⟩
      rw [append_append, hthen _ hs₀'.first]
      exact htransfer s₀' hs₀'.second

/-! ### Ends -/

/-- A parser that takes nothing and succeeds. -/
theorem returns {a : α} (hx : x s = .ok a s) (hx' : ∀ s', s'.head = s.head → x' s' = .ok a s') :
    Reports n L x x' s where
  ok _ _ hok := by
    rw [hx] at hok
    cases hok
    exact ⟨[], rfl, fun s₁' hs₁' => hx' s₁' hs₁'.head⟩
  error _ _ herror := by
    rw [hx] at herror
    cases herror

/-- A parser that fails at the next token. -/
theorem fails {K : List Token.Kind} (hx : x s = unexpected K s)
    (hx' : ∀ s', s'.head = s.head → x' s' = unexpected K s') (hK : Leads L [] K) :
    Reports n L x x' s where
  ok _ _ hok := by
    rw [hx] at hok
    cases hok
  error _ _ herror := by
    rw [hx] at herror
    cases herror
    refine ⟨_, [], s, rfl, rfl, rfl, hK, fun s₀' hs₀' => ⟨s₀', ?_⟩⟩
    rw [nil_append, hx' s₀' hs₀'.head, unexpected_eq, hs₀'.head]

theorem pure (a : α) : Reports n L (Pure.pure a) (Pure.pure a) s :=
  returns rfl fun _ _ => rfl

theorem unexpected {K : List Token.Kind} (hK : Leads L [] K) :
    Reports n L (Parser.unexpected (α := α) K) (Parser.unexpected K) s :=
  fails rfl (fun _ _ => rfl) hK

/-- The result of a parser, put into another form. -/
theorem map {g : α → β} (h : Reports n L x x' s) :
    Reports n L (x >>= fun a => Pure.pure (g a)) (x' >>= fun a => Pure.pure (g a)) s where
  ok b s₁ hok := by
    obtain ⟨a, s₁, hxs, hpure⟩ := bind_eq_ok.1 hok
    cases hpure
    obtain ⟨us, rfl, htransfer⟩ := h.ok hxs
    exact ⟨us, rfl, fun s₁' hs₁' => bind_ok (htransfer s₁' hs₁')⟩
  error h' s₁ herror := by
    obtain hxs | ⟨a, s₁, -, hpure⟩ := bind_eq_error herror
    · obtain ⟨e, us, s₀, rfl, rfl, hfound, hleads, htransfer⟩ := h.error hxs
      refine ⟨e, us, s₀, rfl, rfl, hfound, hleads, fun s₀' hs₀' => ?_⟩
      obtain ⟨s₁', hx'⟩ := htransfer s₀' hs₀'
      exact ⟨s₁', bind_error hx'⟩
    · cases hpure

/-! ### Single tokens -/

section Tokens

variable {f f' : Token → Parser β} {g g' : Bool → Parser β}

theorem peek (h : Reports n L (f s.head) (f' s.head) s) :
    Reports n L (Parser.peek >>= f) (Parser.peek >>= f') s := by
  refine look ?_ (fun s' hs' => ?_) h
  · rw [bind_peek]
  · rw [bind_peek, hs']

theorem next (h : Reports (n - 1) (after [t] L) x x' s) :
    Reports n L (Parser.next >>= fun _ => x) (Parser.next >>= fun _ => x') (cons t s) :=
  take rfl (fun _ _ => rfl) h

theorem expect (hk : k ≠ .eof) (hs : Clean s) (hL : ∃ vs, L (sample k :: vs))
    (hf : ∀ t s₁, s = cons t s₁ → Clean s₁ → t.kind = k →
      Reports (n - 1) (after [t] L) (f t) (f' t) s₁) :
    Reports n L (Parser.expect k >>= f) (Parser.expect k >>= f') s := by
  by_cases hkind : s.head.kind = k
  · obtain ⟨t, s₁, rfl, hs₁, ht⟩ := hs.exists_cons hk hkind
    exact take (bind_ok (expect_cons ht)) (fun _ _ => bind_ok (expect_cons ht)) (hf t s₁ rfl hs₁ ht)
  · refine fails (bind_error (expect_of_ne hkind)) (fun s' hs' => ?_) (leads_one hk hL)
    exact bind_error (expect_of_ne (hs' ▸ hkind))

theorem accept (hk : k ≠ .eof) (hs : Clean s)
    (htrue : ∀ t s₁, s = cons t s₁ → Clean s₁ → t.kind = k →
      Reports (n - 1) (after [t] L) (g true) (g' true) s₁)
    (hfalse : s.head.kind ≠ k → Reports n L (g false) (g' false) s) :
    Reports n L (Parser.accept k >>= g) (Parser.accept k >>= g') s := by
  by_cases hkind : s.head.kind = k
  · obtain ⟨t, s₁, rfl, hs₁, ht⟩ := hs.exists_cons hk hkind
    exact take (bind_ok (accept_cons ht)) (fun _ _ => bind_ok (accept_cons ht))
      (htrue t s₁ rfl hs₁ ht)
  · refine look (bind_ok (accept_of_ne hkind)) (fun s' hs' => ?_) (hfalse hkind)
    exact bind_ok (accept_of_ne (hs' ▸ hkind))

theorem sees (htrue : s.head.kind = k → Reports n L (g true) (g' true) s)
    (hfalse : s.head.kind ≠ k → Reports n L (g false) (g' false) s) :
    Reports n L (Parser.sees k >>= g) (Parser.sees k >>= g') s := by
  by_cases hkind : s.head.kind = k
  · refine look ?_ (fun s' hs' => ?_) (htrue hkind)
    · rw [bind_sees, decide_eq_true hkind]
    · rw [bind_sees, hs', decide_eq_true hkind]
  · refine look ?_ (fun s' hs' => ?_) (hfalse hkind)
    · rw [bind_sees, decide_eq_false hkind]
    · rw [bind_sees, hs', decide_eq_false hkind]

/-- A phrase, and a token that has to follow it. -/
theorem closed {P : Grammar.Phrase α} {f f' : α → Token → Parser β}
    (hread : Reads x fun us a _ => P us a) (hk : k ≠ .eof) (hs : Clean s) (hL : Follows k P L)
    (hx : Continues P L → Reports n L x x' s)
    (hf : ∀ us a t s₁, s = us ++ cons t s₁ → Clean s₁ → P us a → t.kind = k →
      Reports (n - us.length - 1) (after [t] (after us L)) (f a t) (f' a t) s₁) :
    Reports n L (x >>= fun a => Parser.expect k >>= f a) (x' >>= fun a => Parser.expect k >>= f' a)
      s := by
  refine bind hread hs (hx hL.continues) ?_
  rintro us a s₁ rfl hs₁ ha
  refine expect hk hs₁ (hL ha) ?_
  rintro t s₂ rfl hs₂ ht
  exact hf us a t s₂ rfl hs₂ ha ht

end Tokens

/-! ### Bounds -/

/-- No stream has fewer than no tokens, so the bound may be taken to be positive. -/
theorem of_succ {f : Nat → Parser α} (hm : n ≤ m) (h : ∀ m, n ≤ m + 1 → Reports n L x (f (m + 1)) s) :
    Reports n L x (f m) s := by
  cases m with
  | succ m => exact h m hm
  | zero =>
    obtain rfl := Nat.le_zero.1 hm
    have hone := h 0 (Nat.zero_le 1)
    constructor
    · intro a s₁ hx
      obtain ⟨us, rfl, -⟩ := hone.ok hx
      exact ⟨us, rfl, fun s₁' hs₁' => absurd hs₁'.length_lt (Nat.not_lt_zero _)⟩
    · intro h' s₁ hx
      obtain ⟨e, us, s₀, rfl, rfl, hfound, hleads, -⟩ := hone.error hx
      exact ⟨e, us, s₀, rfl, rfl, hfound, hleads, fun s₀' hs₀' =>
        absurd hs₀'.length_lt (Nat.not_lt_zero _)⟩

end Reports

end Parser

end Lpl
