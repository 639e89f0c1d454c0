import Lpl.Proofs.Errors.Expr
import Lpl.Proofs.Lookahead.Basic

/-!
# What settles an expression

Behind an operand, arguments, an index and a length have been looked for, and behind an expression an
operator too. So an expression ends in the same way before every token that is none of these.
-/

namespace Lpl

namespace Parser

open TokenStream ParseError
open Token (Kind)

variable {n m : Nat} {s : TokenStream} {G : Kind → Prop}

/-! ## Before a token that starts nothing -/

theorem simpleWithin_of_not_mem (h : s.head.kind ∉ expressionStart) :
    simpleWithin (n + 1) s = unexpected expressionStart s := by
  rw [simpleWithin, bind_peek]
  cases hk : s.head.kind with
  | ident | intLiteral | minus | bang | kwNew | kwNull | lparen => exact absurd (hk ▸ h) (by decide)
  | _ => rfl

/-- Without a bound nothing is read either. -/
theorem simpleWithin_fails (h : s.head.kind ∉ expressionStart) :
    ∃ e s', simpleWithin n s = .error e s' := by
  cases n with
  | zero => exact ⟨_, _, rfl⟩
  | succ n => exact ⟨_, _, simpleWithin_of_not_mem h⟩

/-! ## Literals -/

theorem ofLiteral_of_literalValue {negative : Bool} {t : Token} (ht : t.kind = .intLiteral)
    {e : ParseError} (h : literalValue negative t = .error e) : e.ofLiteral = true := by
  obtain rfl | ⟨v, rfl⟩ := literalValue_eq_error h
  · simp [ofLiteral, ht]
  · rfl

/-- A parser that takes a literal as `magnitude` does, and fails at a token that starts no expression. If
the text of the literal is at fault, an expression could stand in its place, or what could stand in the
place of one. -/
theorem settles_ofLiteral {α : Type} {F : α → TokenStream → Kind → Prop} {x x' : Parser α}
    {f : Int32 → α} (negative : Bool) {t : Token}
    (ht : t.kind = .intLiteral)
    (hok : ∀ v s', magnitude negative (cons t s') = .ok v s' →
      x (cons t s') = .ok (f v) s' ∧ x' (cons t s') = .ok (f v) s')
    (herror : ∀ e s', magnitude negative (cons t s') = .error e s' →
      x (cons t s') = .error e s' ∧ x' (cons t s') = .error e s')
    (hother : ∀ s' : TokenStream, s'.head.kind ∉ expressionStart → ∃ e s'', x' s' = .error e s'')
    (hG : ∀ k, G k → k ∈ expressionStart ++ passedOver expressionStart) :
    Settles n G F x x' (cons t s) := by
  have hmagnitude : ∀ s, magnitude negative (cons t s) = _ := fun s => magnitude_cons ht
  cases hvalue : literalValue negative t with
  | ok v =>
    simp only [hvalue] at hmagnitude
    exact .take (hok v s (hmagnitude s)).1 (fun s' => (hok v s' (hmagnitude s')).2)
      (.pure (f v) fun _ => False.elim)
  | error e =>
    simp only [hvalue] at hmagnitude
    exact .faulty (by simp [ht]) (found?_of_literalValue hvalue).1 (ofLiteral_of_literalValue ht hvalue)
      (herror _ s (hmagnitude s)).1 (fun s' => (herror _ s' (hmagnitude s')).2) hother hG

theorem ne_intLiteral_of_not_mem {k : Kind} (hk : k ∉ expressionStart) : k ≠ .intLiteral := by
  rintro rfl
  exact absurd hk (by decide)

theorem settles_magnitude {negative : Bool} (hs : s.last.kind = .eof) (hG : ∀ k, G k → k ∈ [Kind.minus]) :
    Settles n G (fun _ _ _ => False) (magnitude negative) (magnitude negative) s := by
  have hfails : ∀ s' : TokenStream, s'.head.kind ≠ .intLiteral →
      magnitude negative s' = unexpected [.intLiteral] s' := fun s' hs' => bind_error (expect_of_ne hs')
  by_cases hkind : s.head.kind = .intLiteral
  · obtain ⟨t, s₁, rfl, -, ht⟩ := exists_cons_of_ends hs (by decide) hkind
    refine settles_ofLiteral negative (f := id) ht (fun _ _ h => ⟨h, h⟩) (fun _ _ h => ⟨h, h⟩) ?_
      fun k hk => ?_
    · exact fun s' hs' => ⟨_, s', hfails s' (ne_intLiteral_of_not_mem hs')⟩
    · obtain rfl := List.mem_singleton.1 (hG k hk)
      decide
  · refine .fails (hfails s hkind) (fun s' hs' => hfails s' ?_) (.inr hkind) fun k hk => ?_
    · rcases hs' with hs' | hs'
      · rwa [hs']
      · simpa using hs'
    · obtain rfl := List.mem_singleton.1 (hG k hk)
      decide

theorem settles_signedInt (hs : s.last.kind = .eof) :
    Settles n (fun _ => False) (fun _ _ _ => False) signedInt signedInt s := by
  refine .accept (by decide) hs (fun t s₁ _ hs₁ _ => ?_) (fun _ => ?_)
  · exact settles_magnitude hs₁ fun _ => False.elim
  · exact settles_magnitude hs (by simp)

/-! ## Brackets and arguments -/

variable {b i j : Nat}

theorem settles_emptyBrackets (hs : s.last.kind = .eof) (hi : s.ahead.length < i) (hj : b ≤ j) :
    Settles b (fun _ => False) (fun _ _ k => k ∈ [Kind.lbracket]) (emptyBrackets i) (emptyBrackets j) s := by
  induction i generalizing b j s with
  | zero =>
    exact absurd hi (Nat.not_lt_zero _)
  | succ i ih =>
    refine .of_succ hj ?_
    intro j hj
    refine .accept (by decide) hs (fun l s₁ heq hs₁ _ => ?_) fun _ => .pure _ (by simp)
    subst heq
    refine .expect (by decide) hs₁ (fun _ _ => False.elim) ?_
    rintro r s₂ rfl hs₂ -
    exact .map (ih hs₂ (by simp at hi; omega) (by omega)) fun _ _ _ => id

/-- The kinds that may have been looked for in vain where an expression starts. -/
def BeforeExpression (G : Kind → Prop) : Prop :=
  ∀ k, G k → k ∈ expressionStart ++ passedOver expressionStart

theorem beforeExpression_false : BeforeExpression fun _ => False := fun _ => False.elim

/-- What the parser of expressions with a bound of `n` depends on. -/
def SettlesExp (n : Nat) : Prop :=
  ∀ ⦃m s G⦄, s.last.kind = .eof → s.ahead.length < n → BeforeExpression G →
    Settles m G (fun _ _ k => k ∈ expressionTails) (expressionWithin n) (expressionWithin m) s

section Productions

variable (hexp : SettlesExp n)

include hexp

theorem settles_indexers (hs : s.last.kind = .eof) (hi : s.ahead.length < i) (hn : i ≤ n) (hj : b ≤ j)
    (hm : b ≤ m) : Settles b G (fun es _ k => es = [] ∧ G k ∨ k ∈ [Kind.lbracket])
      (indexers (expressionWithin n) i) (indexers (expressionWithin m) j) s := by
  induction i generalizing b j s G with
  | zero =>
    exact absurd hi (Nat.not_lt_zero _)
  | succ i ih =>
    refine .of_succ hj ?_
    intro j hj
    refine .accept (by decide) hs (fun l s₁ heq hs₁ _ => ?_) fun _ => .pure _ (by simp)
    subst heq
    refine .closed ((hexp hs₁ (by simp at hi; omega) beforeExpression_false).mono (by omega))
      (by decide) hs₁ (fun _ _ _ => by decide) ?_
    rintro us e r s₃ rfl hs₃ -
    exact .map (ih hs₃ (by simp at hi; omega) (by omega) (by omega) (by omega)) (by simp)

theorem settles_expressions (hs : s.last.kind = .eof) (hi : s.ahead.length < i) (hn : i ≤ n) (hj : b ≤ j)
    (hm : b ≤ m) (hG : BeforeExpression G) : Settles b G (fun _ _ k => k ∈ .comma :: expressionTails)
      (expressions (expressionWithin n) i) (expressions (expressionWithin m) j) s := by
  induction i generalizing b j s G with
  | zero =>
    exact absurd hi (Nat.not_lt_zero _)
  | succ i ih =>
    refine .of_succ hj ?_
    intro j hj
    refine .bind ((hexp hs (by omega) hG).mono hm) ?_
    rintro us e s₁ rfl -
    refine .accept (by decide) hs (fun c s₂ heq hs₂ _ => ?_) fun _ => .pure _ (by simp [or_comm])
    subst heq
    exact .map (ih hs₂ (by simp at hi; omega) (by omega) (by omega) (by omega) beforeExpression_false)
      fun _ _ _ => id

/-- The kinds looked for behind arguments: none matters at a closing parenthesis. -/
def AfterArguments (s : TokenStream) (k : Kind) : Prop :=
  s.head.kind = .rparen ∨ k ∈ .comma :: expressionTails

omit hexp in
theorem closes_afterArguments (h : s.head.kind ≠ .rparen) :
    ∀ k, AfterArguments s k → k ∈ [.rparen] ++ passedOver [.rparen] := by
  rintro k (hk | hk)
  · exact absurd hk h
  · revert k
    decide

theorem settles_arguments (hs : s.last.kind = .eof) (hi : s.ahead.length < i) (hn : i ≤ n) (hj : b ≤ j)
    (hm : b ≤ m) : Settles b (fun _ => False) (fun _ => AfterArguments)
      (arguments (expressionWithin n) i) (arguments (expressionWithin m) j) s := by
  refine .sees (fun hhead => .pure _ fun _ _ => .inl hhead) fun _ => ?_
  refine (settles_expressions hexp hs hi hn hj hm fun k hk => ?_).weaken (fun _ => id) fun _ _ _ => .inr
  rcases hk with hk | rfl
  · exact hk.elim
  · decide

theorem settles_dimensions (hs : s.last.kind = .eof) (hi : s.ahead.length < i) (hn : i ≤ n) (hj : b ≤ j)
    (hm : b ≤ m) : Settles b (fun _ => False) (fun _ _ k => k ∈ [Kind.lbracket])
      (dimensions (expressionWithin n) i) (dimensions (expressionWithin m) j) s := by
  induction i generalizing b j s with
  | zero =>
    exact absurd hi (Nat.not_lt_zero _)
  | succ i ih =>
    refine .of_succ hj ?_
    intro j hj
    refine .accept (by decide) hs (fun l s₁ heq hs₁ _ => ?_) fun _ => .pure _ (by simp)
    subst heq
    refine .accept (by decide) hs₁ (fun r s₂ heq hs₂ _ => ?_) fun _ => ?_
    · subst heq
      exact .map (settles_emptyBrackets hs₂ (by simp at hi; omega) (by omega)) fun _ _ _ => id
    · have hbefore : BeforeExpression fun k => False ∨ k = Kind.rbracket := by
        rintro k (hk | rfl)
        · exact hk.elim
        · decide
      refine .closed ((hexp hs₁ (by simp at hi; omega) hbefore).mono (by omega)) (by decide) hs₁
        (fun _ _ _ => by decide) ?_
      rintro us e r s₃ rfl hs₃ -
      exact .map (ih hs₃ (by simp at hi; omega) (by omega) (by omega) (by omega)) fun _ _ _ => id

theorem settles_newArray {l : Location} (hs : s.last.kind = .eof) (hi : s.ahead.length < n) (hm : b ≤ m) :
    Settles b (fun _ => False) (fun _ _ k => k ∈ operandTails) (newArray (expressionWithin n) n l)
      (newArray (expressionWithin m) m l) s := by
  refine .expect (by decide) hs (fun _ _ => False.elim) ?_
  rintro k s₁ rfl hs₁ -
  refine .expect (by decide) hs₁ (fun _ _ => False.elim) ?_
  rintro l s₂ rfl hs₂ -
  refine .closed ((hexp hs₂ (by simp at hi; omega) beforeExpression_false).mono (by omega)) (by decide) hs₂
    (fun _ _ _ => by decide) ?_
  rintro us e r s₃ rfl hs₃ -
  refine .map (settles_dimensions hexp hs₃ (by simp at hi; omega) (by omega) (by omega) (by omega)) ?_
  simp [operandTails]

theorem settles_namedOperand {x : Token} (hs : s.last.kind = .eof) (hi : s.ahead.length < n) (hm : b ≤ m) :
    Settles b (fun _ => False) (fun _ _ k => k ∈ operandTails) (namedOperand (expressionWithin n) n x)
      (namedOperand (expressionWithin m) m x) s := by
  refine .accept (by decide) hs (fun l s₁ heq hs₁ _ => ?_) fun _ => ?_
  · subst heq
    refine .closed (settles_arguments hexp hs₁ (by simp at hi; omega) (by omega) (by omega) (by omega))
      (by decide) hs₁ (fun _ _ => closes_afterArguments) ?_
    exact fun _ _ _ _ _ _ _ => .pure _ fun _ => False.elim
  · refine .bind (settles_indexers hexp hs hi (Nat.le_refl n) hm hm) ?_
    rintro us es s₁ rfl -
    refine .accept (by decide) hs (fun d s₂ heq hs₂ _ => ?_) fun _ => .pure _ ?_
    · subst heq
      refine .expect (by decide) hs₂ (fun _ _ => False.elim) fun _ _ _ _ _ => .pure _ fun _ => False.elim
    · rintro k ((⟨-, hk | rfl⟩ | hk) | rfl)
      · exact hk.elim
      · decide
      · obtain rfl := List.mem_singleton.1 hk
        decide
      · decide

end Productions

/-! ## Operands -/

/-- What the parser of operands with a bound of `n` depends on. -/
def SettlesSimple (n : Nat) : Prop :=
  ∀ ⦃m s G⦄, s.last.kind = .eof → s.ahead.length < n → BeforeExpression G →
    Settles m G (fun _ _ k => k ∈ operandTails) (simpleWithin n) (simpleWithin m) s

theorem ofKind?_of_not_mem {k : Kind} (h : k ∉ expressionTails) : BinaryOp.ofKind? k = none := by
  cases k with
  | star | slash | plus | minus | less | lessEq | equalTo | andAnd | orOr => exact absurd h (by decide)
  | _ => rfl

theorem settlesExp_of_simple (hsimple : SettlesSimple n) : SettlesExp n := by
  intro m s G hs hn hG
  refine .bind (hsimple hs hn hG) ?_
  rintro us a s₁ rfl -
  cases hop : BinaryOp.ofKind? s₁.head.kind with
  | none =>
    -- The operators have been looked for in vain, and so they are at any other token that is none.
    refine .look (K := fun k => BinaryOp.ofKind? k ≠ none) (y := Pure.pure a) ?_ (fun s' hs' => ?_)
      (fun s' hs' => ?_) (.pure a ?_)
    · rw [bind_peek, hop]
    · rw [bind_peek, hs', hop]
    · rw [bind_peek, Decidable.not_not.1 hs']
    · rintro k (hk | hk)
      · exact List.mem_append_left _ hk
      · exact Decidable.byContradiction fun hmem => hk (ofKind?_of_not_mem hmem)
  | some op =>
    have hne : s₁.head.kind ≠ .eof := by
      intro heof
      rw [heof] at hop
      cases hop
    obtain ⟨o, s₂, rfl, hs₂, -⟩ := exists_cons_of_ends (s := s₁) hs hne rfl
    refine .peek ?_
    simp only [hop]
    refine .next (.map ((hsimple hs₂ (by simp at hn; omega) beforeExpression_false).mono (by omega)) ?_)
    simp +contextual [expressionTails]

theorem simpleWithin_literal {t : Token} (ht : t.kind = .intLiteral) :
    simpleWithin (n + 1) (cons t s) =
      (magnitude false >>= fun v => Pure.pure (Expr.int v t.location)) (cons t s) := by
  have hsign : signedInt (cons t s) = magnitude false (cons t s) :=
    bind_ok (accept_of_ne (by simp [ht]))
  rw [simpleWithin, bind_peek, head_cons, ht]
  show EStateM.bind signedInt _ _ = EStateM.bind _ _ _
  simp only [EStateM.bind, hsign]

/-- What follows a `-`: a literal that it is the sign of, or an operand. -/
def negated (simple : Parser Expr) (l : Location) : Parser Expr := do
  if ← sees .intLiteral then return .int (← magnitude true) l
  else return .unary .neg (← simple) l

theorem simpleWithin_minus {d : Token} (hd : d.kind = .minus) :
    simpleWithin (n + 1) (cons d s) = negated (simpleWithin n) d.location s := by
  rw [simpleWithin, bind_peek, head_cons, hd, negated, bind_sees]
  by_cases hsecond : s.head.kind = .intLiteral
  · rw [decide_eq_true hsecond]
    exact (congrFun (if_pos (decide_eq_true hsecond)) _).trans (bind_signedInt hd)
  · rw [decide_eq_false hsecond]
    have hminus : ¬ decide (s.head.kind = .intLiteral) = true := by simp [hsecond]
    exact congrFun (if_neg hminus) _

theorem negated_literal {simple : Parser Expr} {l : Location} {t : Token} (ht : t.kind = .intLiteral) :
    negated simple l (cons t s) =
      (magnitude true >>= fun v => Pure.pure (Expr.int v l)) (cons t s) := by
  rw [negated, bind_sees, head_cons, decide_eq_true ht]
  rfl

theorem negated_fails {l : Location} (h : s.head.kind ∉ expressionStart) :
    ∃ e s', negated (simpleWithin n) l s = .error e s' := by
  rw [negated, bind_sees, decide_eq_false (ne_intLiteral_of_not_mem h)]
  obtain ⟨e, s', hfails⟩ := simpleWithin_fails (n := n) h
  exact ⟨e, s', bind_error hfails⟩

theorem settles_negated {l : Location} (hsimple : SettlesSimple n) (hs : s.last.kind = .eof)
    (hn : s.ahead.length < n) (hm : b ≤ m) :
    Settles b (fun _ => False) (fun _ _ k => k ∈ operandTails) (negated (simpleWithin n) l)
      (negated (simpleWithin m) l) s := by
  by_cases hliteral : s.head.kind = .intLiteral
  · obtain ⟨t, s₁, rfl, -, ht⟩ := exists_cons_of_ends hs (by decide) hliteral
    refine settles_ofLiteral true (f := (.int · l)) ht (fun v s' h => ?_) (fun e s' h => ?_)
      (fun s' => negated_fails) beforeExpression_false
    · exact ⟨(negated_literal ht).trans (bind_ok h), (negated_literal ht).trans (bind_ok h)⟩
    · exact ⟨(negated_literal ht).trans (bind_error h), (negated_literal ht).trans (bind_error h)⟩
  · refine .sees (fun h => absurd h hliteral) fun _ =>
      .map ((hsimple hs hn ?_).mono hm) fun _ _ _ => id
    rintro k (hk | rfl)
    · exact hk.elim
    · decide

theorem settlesSimple (n : Nat) : SettlesSimple n := by
  induction n with
  | zero =>
    intro m s G hs hn
    exact absurd hn (Nat.not_lt_zero _)
  | succ n ih =>
    have hexp := settlesExp_of_simple ih
    intro m s G hs hn hG
    refine .of_succ (Nat.le_refl m) ?_
    intro j hj
    by_cases hstart : s.head.kind ∉ expressionStart
    · exact .unstarted hstart simpleWithin_of_not_mem simpleWithin_of_not_mem (by decide) hG
    have hne : s.head.kind ≠ .eof := by
      intro heof
      rw [heof] at hstart
      exact hstart (by decide)
    obtain ⟨t, s₁, rfl, hs₁, -⟩ := exists_cons_of_ends hs hne rfl
    have hn₁ : s₁.ahead.length < n := by simp at hn; omega
    by_cases hliteral : t.kind = .intLiteral
    · refine settles_ofLiteral false (f := (.int · t.location)) hliteral (fun v s' h => ?_)
        (fun e s' h => ?_) (fun s' => simpleWithin_fails) hG
      · exact ⟨(simpleWithin_literal hliteral).trans (bind_ok h),
          (simpleWithin_literal hliteral).trans (bind_ok h)⟩
      · exact ⟨(simpleWithin_literal hliteral).trans (bind_error h),
          (simpleWithin_literal hliteral).trans (bind_error h)⟩
    by_cases hminus : t.kind = .minus
    · exact .take (simpleWithin_minus hminus) (fun _ => simpleWithin_minus hminus)
        (settles_negated ih hs₁ hn₁ (by omega))
    -- Any other operand takes its first token, and looks at no further one to decide how to go on.
    rw [simpleWithin, simpleWithin]
    refine .peek ?_
    rw [head_cons]
    cases hk : t.kind with
    | ident => exact .next (settles_namedOperand hexp hs₁ hn₁ (by omega))
    | bang => exact .next (.map ((ih hs₁ hn₁ beforeExpression_false).mono (by omega)) fun _ _ _ => id)
    | kwNew => exact .next (settles_newArray hexp hs₁ hn₁ (by omega))
    | kwNull => exact .next (.pure _ fun _ => False.elim)
    | lparen =>
      exact .next (.closed ((hexp hs₁ hn₁ beforeExpression_false).mono (by omega)) (by decide) hs₁
        (fun _ _ _ => by decide) fun _ _ _ _ _ _ _ => .pure _ fun _ => False.elim)
    | intLiteral => exact absurd hk hliteral
    | minus => exact absurd hk hminus
    | _ =>
      rw [head_cons, hk] at hstart
      exact absurd (by decide) hstart

theorem settlesExp (n : Nat) : SettlesExp n := settlesExp_of_simple (settlesSimple n)

end Parser

end Lpl
