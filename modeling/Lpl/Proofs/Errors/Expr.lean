import Lpl.Proofs.Errors.Basic

/-!
# Errors in expressions

An expression that breaks off can be completed, and with each of the tokens that its error lists, if
every expression can be completed in what it stands in. The bounds go down with the tokens: a parser with
a bound of `n` is asked about streams of fewer than `n` tokens, and compared with the one that has a bound
of `m` on streams of fewer than `m`.
-/

namespace Lpl

namespace Grammar

open Token (sample kind_sample)

theorem Many.append {α : Type} {P : Phrase α} {us vs : List Token} {as bs : List α} (h : Many P us as)
    (h' : Many P vs bs) : Many P (us ++ vs) (as ++ bs) := by
  induction h with
  | nil => exact h'
  | cons ha _ ih =>
    rw [List.append_assoc]
    exact .cons ha ih

theorem literal_sample : Literal [sample .intLiteral] (0 : Nat) := .plain rfl (by decide)

theorem literal_minus {m : Token} (hm : m.kind = .minus) :
    Literal [m, sample .intLiteral] (-(0 : Nat)) :=
  .negative hm (kind_sample .intLiteral) (by decide)

theorem simpleExp_sample : SimpleExp [sample .ident] (.var "0" .start) := .named rfl .nil

theorem exp_sample : Exp [sample .ident] (.var "0" .start) := .simple simpleExp_sample

theorem bracketed_sample :
    Bracketed Exp [sample .lbracket, sample .ident, sample .rbracket] (.var "0" .start) :=
  .mk rfl exp_sample rfl

/-- Each of the kinds that an expression is said to start with does start one. -/
theorem exists_simpleExp {k : Token.Kind} (hk : k ∈ Parser.expressionStart) :
    ∃ us e, SimpleExp (sample k :: us) e := by
  simp only [Parser.expressionStart, List.mem_cons, List.not_mem_nil, or_false] at hk
  rcases hk with rfl | rfl | rfl | rfl | rfl | rfl | rfl
  · exact ⟨_, _, simpleExp_sample⟩
  · exact ⟨_, _, .neg rfl (by decide) simpleExp_sample⟩
  · exact ⟨_, _, .int (.mk literal_sample (by decide))⟩
  · exact ⟨_, _, .new rfl (kind_sample .kwInt) bracketed_sample .nil .none⟩
  · exact ⟨_, _, .not rfl simpleExp_sample⟩
  · exact ⟨_, _, .null rfl⟩
  · exact ⟨_, _, .parens (.mk rfl exp_sample (kind_sample .rparen))⟩

/-- A `-` may stand before any operand. Before a literal it is the sign. -/
theorem exists_simpleExp_minus {m : Token} (hm : m.kind = .minus) {us : List Token} {e : Expr}
    (h : SimpleExp us e) : ∃ e', SimpleExp (m :: us) e' := by
  obtain ⟨t, us, rfl, -⟩ := starts_simpleExp h
  by_cases ht : t.kind = .intLiteral
  · cases h with
    | int hv =>
      obtain ⟨hliteral, hrange⟩ := hv
      cases hliteral with
      | plain _ hmagnitude =>
        refine ⟨_, .int (.mk (.negative hm ht hmagnitude) ?_)⟩
        unfold Numeral.Within Numeral.half32 at *
        omega
      | negative hx => exact absurd (hx.symm.trans ht) (by decide)
    | parens h =>
      obtain ⟨hl, -, -⟩ := h
      exact absurd (hl.symm.trans ht) (by decide)
    | call hx | named hx | length hx | neg hx | not hx | new hx | null hx =>
      exact absurd (hx.symm.trans ht) (by decide)
  · exact ⟨_, .neg hm ht h⟩

end Grammar

namespace Parser

open TokenStream Grammar TokenLanguage
open Token (sample kind_sample)

variable {n m m' : Nat} {s : TokenStream} {L : TokenLanguage}

/-! ## Literals -/

/-- What is wrong with a literal is its text or its value. -/
theorem literalValue_eq_error {negative : Bool} {t : Token} {e : ParseError}
    (h : literalValue negative t = .error e) :
    e = .unexpected t [.intLiteral] ∨ ∃ v, e = .literalOutOfRange t v := by
  unfold literalValue at h
  cases hread : Numeral.read? Numeral.half64 t.lexeme with
  | none =>
    simp only [hread] at h
    exact .inl (Except.error.inj h).symm
  | some n =>
    simp only [hread] at h
    by_cases hrange : Numeral.Within Numeral.half32 (if negative then Numeral.negate64 n else n)
    · rw [if_pos hrange] at h
      cases h
    · rw [if_neg hrange] at h
      exact .inr ⟨_, (Except.error.inj h).symm⟩

/-- A literal that is at fault is the token found, and lists at most its own kind. -/
theorem found?_of_literalValue {negative : Bool} {t : Token} {e : ParseError}
    (h : literalValue negative t = .error e) :
    e.found? = some t ∧ ∀ k ∈ e.expected, k = .intLiteral := by
  obtain rfl | ⟨v, rfl⟩ := literalValue_eq_error h
  · exact ⟨rfl, by simp [ParseError.expected]⟩
  · exact ⟨rfl, by simp [ParseError.expected]⟩

theorem reports_magnitude {negative : Bool} (hs : Clean s)
    (hL : ∃ vs, L (sample .intLiteral :: vs)) :
    Reports n L (magnitude negative) (magnitude negative) s := by
  by_cases hkind : s.head.kind = .intLiteral
  · obtain ⟨t, s₁, rfl, -, ht⟩ := hs.exists_cons (by decide) hkind
    -- The literal alone decides the outcome.
    have hmagnitude : ∀ s, magnitude negative (cons t s) = _ := fun s => magnitude_cons ht
    cases hvalue : literalValue negative t with
    | ok v =>
      simp only [hvalue] at hmagnitude
      exact .take (hmagnitude s₁) (fun s' _ => hmagnitude s') (.pure v)
    | error e =>
      simp only [hvalue] at hmagnitude
      obtain ⟨hfound, hexpected⟩ := found?_of_literalValue hvalue
      refine ⟨fun v s₂ hok => ?_, fun h s₂ herror => ?_⟩
      · rw [hmagnitude] at hok
        cases hok
      · rw [hmagnitude] at herror
        cases herror
        refine ⟨e, [], cons t s₁, rfl, rfl, hfound, ⟨?_, fun k hk => ?_⟩, fun s₀' hs₀' => ?_⟩
        · exact hL.imp' (sample .intLiteral :: ·) fun _ hvs => hvs
        · obtain rfl := hexpected k hk
          exact ⟨_, hL.imp fun _ hvs => ⟨kind_sample .intLiteral, hvs⟩⟩
        · have hhead : s₀'.head = t := hs₀'.head
          have hcons := eq_cons_of_ends hs₀'.ends (by simp [hhead, ht])
          rw [nil_append, hcons, hhead]
          exact ⟨_, hmagnitude _⟩
  · refine .fails (bind_error (expect_of_ne hkind)) (fun s' hs' => ?_) (leads_one (by decide) hL)
    exact bind_error (expect_of_ne (hs' ▸ hkind))

theorem reports_signedInt (hs : Clean s) (hL : Continues SignedInt L) :
    Reports n L signedInt signedInt s := by
  refine .accept (by decide) hs (fun t s₁ _ hs₁ ht => reports_magnitude hs₁ ?_)
    (fun _ => reports_magnitude hs ?_)
  · exact hL (.mk (literal_minus ht) (by decide))
  · exact hL (.mk literal_sample (by decide))

/-! ## Brackets and arguments -/

variable {b i j : Nat}

theorem reports_emptyBrackets (hs : Clean s) (hi : s.ahead.length < i) (hj : b ≤ j)
    (hL : Continues EmptyBrackets L) : Reports b L (emptyBrackets i) (emptyBrackets j) s := by
  induction i generalizing b j s L with
  | zero =>
    exact absurd hi (Nat.not_lt_zero _)
  | succ i ih =>
    refine .of_succ hj ?_
    intro j hj
    refine .accept (by decide) hs (fun l s₁ heq hs₁ hl => ?_) fun _ => .pure _
    subst heq
    refine .expect (by decide) hs₁ (hL (.more hl (kind_sample .rbracket) .none)) ?_
    rintro r s₂ rfl hs₂ hr
    refine .map (ih hs₂ (by simp at hi; omega) (by omega) fun us k hus => ?_)
    simpa [after] using hL (.more hl hr hus)

/-- What the parser of expressions with a bound of `n` reports. -/
def ReportsExp (n : Nat) : Prop :=
  ∀ ⦃m s L⦄, Clean s → s.ahead.length < n → Continues Exp L →
    Reports m L (expressionWithin n) (expressionWithin m) s

theorem leads_expressionStart (hL : Continues SimpleExp L) : Leads L [] expressionStart := by
  refine leads_nil (by decide) fun k hk => ⟨?_, ?_⟩
  · rintro rfl
    exact absurd hk (by decide)
  · obtain ⟨us, e, he⟩ := exists_simpleExp hk
    exact (hL he).imp' (us ++ ·) fun _ hvs => hvs

/-- The sizes of an array, and the dimensions that are left open. -/
inductive Dimensions : Phrase (List Expr × Nat)
  | mk {us vs es k} : Many (Bracketed Exp) us es → EmptyBrackets vs k → Dimensions (us ++ vs) (es, k)

section Productions

variable (hexp : ReportsExp n)

include hexp

theorem reports_indexers (hs : Clean s) (hi : s.ahead.length < i) (hn : i ≤ n) (hj : b ≤ j)
    (hm : b ≤ m) (hL : Continues (Many (Bracketed Exp)) L) :
    Reports b L (indexers (expressionWithin n) i) (indexers (expressionWithin m) j) s := by
  induction i generalizing b j s L with
  | zero =>
    exact absurd hi (Nat.not_lt_zero _)
  | succ i ih =>
    refine .of_succ hj ?_
    intro j hj
    refine .accept (by decide) hs (fun l s₁ heq hs₁ hl => ?_) fun _ => .pure _
    subst heq
    refine .closed (reads_expressionWithin n) (by decide) hs₁ (fun us e he => ?_)
      (fun hL => (hexp hs₁ (by simp at hi; omega) hL).mono (by omega)) ?_
    · simpa [after] using hL (.cons (.mk hl he (kind_sample .rbracket)) .nil)
    rintro us e r s₃ rfl hs₃ he hr
    refine .map (ih hs₃ (by simp at hi; omega) (by omega) (by omega) (by omega) fun vs es hes => ?_)
    simpa [after] using hL (.cons (.mk hl he hr) hes)

theorem reports_expressions (hs : Clean s) (hi : s.ahead.length < i) (hn : i ≤ n) (hj : b ≤ j)
    (hm : b ≤ m) (hL : Continues (Separated Exp) L) :
    Reports b L (expressions (expressionWithin n) i) (expressions (expressionWithin m) j) s := by
  have hone : Continues Exp L := fun us e he => hL (.one he)
  induction i generalizing b j s L with
  | zero =>
    exact absurd hi (Nat.not_lt_zero _)
  | succ i ih =>
    refine .of_succ hj ?_
    intro j hj
    refine .bind (reads_expressionWithin n) hs ((hexp hs (by omega) hone).mono hm) ?_
    rintro us e s₁ rfl hs₁ he
    refine .accept (by decide) hs₁ (fun c s₂ heq hs₂ hc => ?_) fun _ => .pure _
    subst heq
    have hmore : Continues (Separated Exp) (after [c] (after us L)) := fun vs es hes => by
      simpa [after] using hL (.more he hc hes)
    exact .map (ih hs₂ (by simp at hi; omega) (by omega) (by omega) (by omega) hmore
      fun vs e he => hmore (.one he))

theorem reports_arguments (hs : Clean s) (hi : s.ahead.length < i) (hn : i ≤ n) (hj : b ≤ j)
    (hm : b ≤ m) (hL : Continues (Listed Exp) L) :
    Reports b L (arguments (expressionWithin n) i) (arguments (expressionWithin m) j) s :=
  .sees (fun _ => .pure _) fun _ =>
    reports_expressions hexp hs hi hn hj hm fun _ _ hes => hL (.some hes)

theorem reports_dimensions (hs : Clean s) (hi : s.ahead.length < i) (hn : i ≤ n) (hj : b ≤ j)
    (hm : b ≤ m) (hL : Continues Dimensions L) :
    Reports b L (dimensions (expressionWithin n) i) (dimensions (expressionWithin m) j) s := by
  induction i generalizing b j s L with
  | zero =>
    exact absurd hi (Nat.not_lt_zero _)
  | succ i ih =>
    refine .of_succ hj ?_
    intro j hj
    refine .accept (by decide) hs (fun l s₁ heq hs₁ hl => ?_) fun _ => .pure _
    subst heq
    refine .accept (by decide) hs₁ (fun r s₂ heq hs₂ hr => ?_) fun _ => ?_
    · subst heq
      refine .map (reports_emptyBrackets hs₂ (by simp at hi; omega) (by omega) fun ws k hws => ?_)
      exact hL (.mk .nil (.more hl hr hws))
    · refine .closed (reads_expressionWithin n) (by decide) hs₁ (fun us e he => ?_)
        (fun hL => (hexp hs₁ (by simp at hi; omega) hL).mono (by omega)) ?_
      · simpa [after] using hL (.mk (.cons (.mk hl he (kind_sample .rbracket)) .nil) .none)
      rintro us e r s₃ rfl hs₃ he hr
      refine .map (ih hs₃ (by simp at hi; omega) (by omega) (by omega) (by omega) ?_)
      rintro _ _ ⟨hvs, hws⟩
      simpa [after] using hL (.mk (.cons (.mk hl he hr) hvs) hws)

theorem reports_newArray {w : Token} (hw : w.kind = .kwNew) (hs : Clean s) (hi : s.ahead.length < n)
    (hm : b ≤ m) (hL : Continues (fun us e => SimpleExp (w :: us) e) L) :
    Reports b L (newArray (expressionWithin n) n w.location) (newArray (expressionWithin m) m w.location)
      s := by
  have hbrackets : ∀ k : Token, k.kind = .kwInt → ∃ vs, L (k :: sample .lbracket :: vs) := by
    intro k hk
    obtain ⟨vs, hvs⟩ := hL (.new hw hk bracketed_sample .nil .none)
    exact ⟨_, hvs⟩
  refine .expect (by decide) hs ((hbrackets _ (kind_sample .kwInt)).imp' _ fun _ hvs => hvs) ?_
  rintro k s₁ rfl hs₁ hk
  refine .expect (by decide) hs₁ (hbrackets k hk) ?_
  rintro l s₂ rfl hs₂ hl
  refine .closed (reads_expressionWithin n) (by decide) hs₂ (fun us e he => ?_)
    (fun hL => (hexp hs₂ (by simp at hi; omega) hL).mono (by omega)) ?_
  · simpa [after] using hL (.new hw hk (.mk hl he (kind_sample .rbracket)) .nil .none)
  rintro us e r s₃ rfl hs₃ he hr
  refine .map (reports_dimensions hexp hs₃ (by simp at hi; omega) (by omega) (by omega) (by omega) ?_)
  rintro _ _ ⟨hvs, hws⟩
  simpa [after] using hL (.new hw hk (.mk hl he hr) hvs hws)

theorem reports_namedOperand {x : Token} (hx : x.kind = .ident) (hs : Clean s)
    (hi : s.ahead.length < n) (hm : b ≤ m) (hL : Continues (fun us e => SimpleExp (x :: us) e) L) :
    Reports b L (namedOperand (expressionWithin n) n x) (namedOperand (expressionWithin m) m x) s := by
  refine .accept (by decide) hs (fun l s₁ heq hs₁ hl => ?_) fun _ => ?_
  · subst heq
    refine .closed (reads_arguments (reads_expressionWithin n) n) (by decide) hs₁ (fun us es hes => ?_)
      (fun hL => reports_arguments hexp hs₁ (by simp at hi; omega) (by omega) (by omega) (by omega) hL)
      fun us es r s₂ _ _ _ _ => .pure _
    simpa [after] using hL (.call hx (.mk hl hes (kind_sample .rparen)))
  · refine .bind (reads_indexers (reads_expressionWithin n) n) hs
      (reports_indexers hexp hs hi (Nat.le_refl n) hm hm fun us es hes => hL (.named hx hes)) ?_
    rintro us es s₁ rfl hs₁ hes
    refine .accept (by decide) hs₁ (fun d s₂ heq hs₂ hd => ?_) fun _ => .pure _
    subst heq
    refine .expect (by decide) hs₂ ?_ fun k s₃ _ _ _ => .pure _
    simpa [after] using hL (.length hx hes hd (kind_sample .kwLength))

end Productions

/-! ## Operands -/

/-- What the parser of operands with a bound of `n` reports. -/
def ReportsSimple (n : Nat) : Prop :=
  ∀ ⦃m s L⦄, Clean s → s.ahead.length < n → Continues SimpleExp L →
    Reports m L (simpleWithin n) (simpleWithin m) s

theorem reportsExp_of_simple (hsimple : ReportsSimple n) : ReportsExp n := by
  intro m s L hs hn hL
  refine .bind (reads_simpleWithin n) hs (hsimple hs hn fun us e he => hL (.simple he)) ?_
  rintro us a s₁ rfl hs₁ ha
  refine .peek ?_
  cases hop : BinaryOp.ofKind? s₁.head.kind with
  | none => exact .pure _
  | some op =>
    have hne : s₁.head.kind ≠ .eof := by
      intro heof
      rw [heof] at hop
      cases hop
    obtain ⟨o, s₂, rfl, hs₂, -⟩ := hs₁.exists_cons hne rfl
    refine .next (.map ((hsimple hs₂ (by simp at hn; omega) fun vs e he => ?_).mono (by omega)))
    simpa [after] using hL (.binary ha (op_of_ofKind? hop) he)

/-- A literal, and the sign before it. -/
theorem reports_int {l : Location} (hs : Clean s) (hL : Continues SimpleExp L) :
    Reports n L (do return Expr.int (← signedInt) l) (do return Expr.int (← signedInt) l) s := by
  refine .map (reports_signedInt hs fun us v hv => ?_)
  obtain ⟨t, vs, rfl, -⟩ := starts_signedInt hv
  exact hL (.int hv)

/-- A sign takes its literal, and a literal behind it makes it a sign. -/
theorem bind_signedInt {α : Type} {f : Int32 → Parser α} {d : Token} (hd : d.kind = .minus) :
    (signedInt >>= f) (cons d s) = (magnitude true >>= f) s := by
  have hsign : signedInt (cons d s) = magnitude true s := bind_ok (accept_cons hd)
  show EStateM.bind signedInt f (cons d s) = EStateM.bind (magnitude true) f s
  simp only [EStateM.bind, hsign]

theorem reportsSimple (n : Nat) : ReportsSimple n := by
  induction n with
  | zero =>
    intro m s L hs hn
    exact absurd hn (Nat.not_lt_zero _)
  | succ n ih =>
    have hexp := reportsExp_of_simple ih
    intro m s L hs hn hL
    refine .of_succ (Nat.le_refl m) ?_
    intro j hj
    rw [simpleWithin, simpleWithin]
    refine .peek ?_
    cases hk : s.head.kind with
    | ident =>
      obtain ⟨x, s₁, rfl, hs₁, hx⟩ := hs.exists_cons (by decide) hk
      exact .next (reports_namedOperand hexp hx hs₁ (by simp at hn; omega) (by omega)
        fun us e he => hL he)
    | intLiteral => exact reports_int hs hL
    | minus =>
      obtain ⟨d, s₁, rfl, hs₁, hd⟩ := hs.exists_cons (by decide) hk
      -- The token behind the `-` decides whether it is a sign, and is the next one to be read.
      by_cases hsecond : s₁.head.kind = .intLiteral
      · have hsign : ∀ s' : TokenStream, s'.head = s₁.head →
            decide (s'.head.kind = .intLiteral) = true := fun s' hs' => by simp [hs', hsecond]
        refine .take ((congrFun (if_pos (hsign s₁ rfl)) _).trans (bind_signedInt hd))
          (fun s' hs' => (congrFun (if_pos (hsign s' hs')) _).trans (bind_signedInt hd))
          (.map (reports_magnitude hs₁ ?_))
        exact hL (.int (.mk (literal_minus hd) (by decide)))
      · have hoperand : Reports (m - 1) (after [d] L) (simpleWithin n) (simpleWithin j) s₁ := by
          refine (ih hs₁ (by simp at hn; omega) fun us e he => ?_).mono (by omega)
          obtain ⟨e', he'⟩ := exists_simpleExp_minus hd he
          exact hL he'
        have hminus : ∀ s' : TokenStream, s'.head = s₁.head →
            ¬ decide (s'.head.kind = .intLiteral) = true := fun s' hs' => by simp [hs', hsecond]
        refine .take ?_ (fun s' hs' => ?_) (hoperand.map (g := fun e => .unary .neg e d.location))
        · exact congrFun (if_neg (hminus s₁ rfl)) _
        · exact congrFun (if_neg (hminus s' hs')) _
    | bang =>
      obtain ⟨t, s₁, rfl, hs₁, ht⟩ := hs.exists_cons (by decide) hk
      refine .next (.map ((ih hs₁ (by simp at hn; omega) fun us e he => ?_).mono (by omega)))
      exact hL (.not ht he)
    | kwNew =>
      obtain ⟨w, s₁, rfl, hs₁, hw⟩ := hs.exists_cons (by decide) hk
      exact .next (reports_newArray hexp hw hs₁ (by simp at hn; omega) (by omega) fun us e he => hL he)
    | kwNull =>
      obtain ⟨t, s₁, rfl, hs₁, ht⟩ := hs.exists_cons (by decide) hk
      exact .next (.pure _)
    | lparen =>
      obtain ⟨l, s₁, rfl, hs₁, hl⟩ := hs.exists_cons (by decide) hk
      refine .next (.closed (reads_expressionWithin n) (by decide) hs₁ (fun us e he => ?_)
        (fun hL => (hexp hs₁ (by simp at hn; omega) hL).mono (by omega)) fun _ _ _ _ _ _ _ _ => .pure _)
      simpa [after] using hL (.parens (.mk hl he (kind_sample .rparen)))
    | _ => exact .unexpected (leads_expressionStart hL)

end Parser

end Lpl
