import Lpl.Proofs.Parsing.Basic

/-!
# Parsers read what the grammar derives

A parser with a bound of `n` reads every phrase of fewer than `n` tokens, if the token behind the phrase
is one that it stops at. Behind an expression that is a token that cannot go on with it, and behind a
statement that could take an `ELSE` it is any token but `ELSE`.

The proofs follow the bound, as the parsers do. A phrase inside another one is shorter, and what
follows it there is a token that the rule names.
-/

namespace Lpl.Parser

open TokenStream Grammar

variable {n m : Nat} {us vs ws : List Token} {s : TokenStream}

/-! ## Expressions -/

/-- A token of this kind does not go on with an operand. -/
def EndsOperand (k : Token.Kind) : Prop := k ≠ .lparen ∧ k ≠ .lbracket ∧ k ≠ .dot

/-- A token of this kind does not go on with an expression. -/
def EndsExp (k : Token.Kind) : Prop := EndsOperand k ∧ BinaryOp.ofKind? k = none

instance (k : Token.Kind) : Decidable (EndsOperand k) := by unfold EndsOperand; infer_instance

instance (k : Token.Kind) : Decidable (EndsExp k) := by unfold EndsExp; infer_instance

/-- The parser reads the expressions of fewer than `n` tokens. -/
def ReadsExp (n : Nat) (expr : Parser Expr) : Prop :=
  ∀ ⦃us e s⦄, Exp us e → us.length < n → EndsExp s.head.kind → expr (us ++ s) = .ok e s

theorem emptyBrackets_eq_ok {k : Nat} (h : EmptyBrackets us k) (hn : us.length < n)
    (hs : s.head.kind ≠ .lbracket) : emptyBrackets n (us ++ s) = .ok k s := by
  induction h generalizing n with
  | none =>
    obtain ⟨n, rfl⟩ : ∃ m, n = m + 1 := Nat.exists_eq_add_one.2 hn
    exact bind_ok (accept_of_ne hs)
  | @more l r us k hl hr _ ih =>
    obtain ⟨n, rfl⟩ : ∃ m, n = m + 1 := Nat.exists_eq_add_one.2 (by omega)
    simp only [cons_append]
    refine (bind_ok (accept_cons hl)).trans ?_
    refine (bind_ok (expect_cons hr)).trans ?_
    exact bind_ok (ih (by simp at hn; omega))

/-- A literal that is derived is made of digits. -/
theorem all_isDigit_of_magnitude? {cs : List Char} {n : Nat} (h : Numeral.magnitude? cs = some n) :
    cs.all Char.isDigit := by
  unfold Numeral.magnitude? at h
  split at h
  · next hall => exact hall.2
  · cases h

theorem signedInt_eq_ok {v : Int32} (h : SignedInt us v) : signedInt (us ++ s) = .ok v s := by
  obtain ⟨hliteral, hrange⟩ := h
  cases hliteral with
  | @plain t n ht hn =>
    have hvalue : literalValue false t = .ok (.ofInt n) :=
      (literalValue_eq_ok_iff (all_isDigit_of_magnitude? hn)).2 ⟨n, hn, hrange, rfl⟩
    refine (bind_ok (accept_of_ne (by simp [ht]))).trans ((magnitude_cons ht).trans ?_)
    rw [hvalue]
  | @negative d t n hd ht hn =>
    have hvalue : literalValue true t = .ok (.ofInt (-n)) :=
      (literalValue_eq_ok_iff (all_isDigit_of_magnitude? hn)).2 ⟨n, hn, hrange, rfl⟩
    refine (bind_ok (accept_cons hd)).trans ((magnitude_cons ht).trans ?_)
    rw [hvalue]

section Productions

variable {expr : Parser Expr} (hexpr : ReadsExp m expr)

include hexpr

theorem indexers_eq_ok {es : List Expr} (h : Many (Bracketed Exp) us es) (hm : us.length < m)
    (hn : us.length < n) (hs : s.head.kind ≠ .lbracket) :
    indexers expr n (us ++ s) = .ok es s := by
  induction h generalizing n with
  | nil =>
    obtain ⟨n, rfl⟩ : ∃ m, n = m + 1 := Nat.exists_eq_add_one.2 hn
    exact bind_ok (accept_of_ne hs)
  | @cons us vs e es he _ ih =>
    obtain ⟨hl, he, hr⟩ := he
    obtain ⟨n, rfl⟩ : ∃ m, n = m + 1 := Nat.exists_eq_add_one.2 (by omega)
    simp only [append_append, cons_append, nil_append]
    refine (bind_ok (accept_cons hl)).trans ?_
    refine (bind_ok (hexpr he (by simp at hm; omega) (hr ▸ by decide))).trans ?_
    refine (bind_ok (expect_cons hr)).trans ?_
    exact bind_ok (ih (by simp at hm; omega) (by simp at hn; omega))

theorem expressions_eq_ok {es : List Expr} (h : Separated Exp us es) (hm : us.length < m)
    (hn : us.length < n) (hs : EndsExp s.head.kind) (hcomma : s.head.kind ≠ .comma) :
    expressions expr n (us ++ s) = .ok es s := by
  induction h generalizing n with
  | one he =>
    obtain ⟨n, rfl⟩ : ∃ m, n = m + 1 := Nat.exists_eq_add_one.2 (by omega)
    refine (bind_ok (hexpr he hm hs)).trans ?_
    exact bind_ok (accept_of_ne hcomma)
  | @more us c vs e es he hc _ ih =>
    obtain ⟨n, rfl⟩ : ∃ m, n = m + 1 := Nat.exists_eq_add_one.2 (by omega)
    simp only [append_append, cons_append]
    refine (bind_ok (hexpr he (by simp at hm; omega) (hc ▸ by decide))).trans ?_
    refine (bind_ok (accept_cons hc)).trans ?_
    exact bind_ok (ih (by simp at hm; omega) (by simp at hn; omega))

/-- The arguments of a call, up to the closing parenthesis. -/
theorem arguments_eq_ok {es : List Expr} (h : Listed Exp us es) (hm : us.length < m)
    (hn : us.length < n) (hs : s.head.kind = .rparen) :
    arguments expr n (us ++ s) = .ok es s := by
  cases h with
  | none => exact congrFun (if_pos (decide_eq_true hs)) s
  | some h =>
    have hne := (starts_separated starts_exp).head_ne (k := .rparen) h (by decide) s
    refine (congrFun (if_neg (by simp [hne])) (us ++ s)).trans ?_
    exact expressions_eq_ok hexpr h hm hn (hs ▸ by decide) (by simp [hs])

theorem dimensions_eq_ok {es : List Expr} {k : Nat} (h : Many (Bracketed Exp) us es)
    (hvs : EmptyBrackets vs k) (hm : us.length < m) (hn : us.length + vs.length < n)
    (hs : s.head.kind ≠ .lbracket) : dimensions expr n (us ++ (vs ++ s)) = .ok (es, k) s := by
  induction h generalizing n with
  | nil =>
    cases hvs with
    | none =>
      obtain ⟨n, rfl⟩ : ∃ m, n = m + 1 := Nat.exists_eq_add_one.2 hn
      exact bind_ok (accept_of_ne hs)
    | @more l r vs k hl hr hvs =>
      obtain ⟨n, rfl⟩ : ∃ m, n = m + 1 := Nat.exists_eq_add_one.2 (by omega)
      simp only [nil_append, cons_append]
      refine (bind_ok (accept_cons hl)).trans ?_
      refine (bind_ok (accept_cons hr)).trans ?_
      exact bind_ok (emptyBrackets_eq_ok hvs (by simp at hn; omega) hs)
  | @cons us us' e es he _ ih =>
    obtain ⟨hl, he, hr⟩ := he
    obtain ⟨n, rfl⟩ : ∃ m, n = m + 1 := Nat.exists_eq_add_one.2 (by omega)
    simp only [append_append, cons_append, nil_append]
    refine (bind_ok (accept_cons hl)).trans ?_
    refine (bind_ok (accept_of_ne (starts_exp.head_ne he (by decide) _))).trans ?_
    refine (bind_ok (hexpr he (by simp at hm; omega) (hr ▸ by decide))).trans ?_
    refine (bind_ok (expect_cons hr)).trans ?_
    exact bind_ok (ih (by simp at hm; omega) (by simp at hn; omega))

theorem newArray_eq_ok {w : Token} {e : Expr} {es : List Expr} {i : Token} {k : Nat}
    (hi : i.kind = .kwInt) (he : Bracketed Exp us e) (hes : Many (Bracketed Exp) vs es)
    (hk : EmptyBrackets ws k) (hm : us.length + vs.length + ws.length < m)
    (hn : us.length + vs.length + ws.length < n) (hs : s.head.kind ≠ .lbracket) :
    newArray expr n w.location (cons i (us ++ (vs ++ (ws ++ s)))) =
      .ok (.new (e :: es) k w.location) s := by
  obtain ⟨hl, he, hr⟩ := he
  simp only [append_append, cons_append, nil_append]
  refine (bind_ok (expect_cons hi)).trans ?_
  refine (bind_ok (expect_cons hl)).trans ?_
  refine (bind_ok (hexpr he (by simp at hm; omega) (hr ▸ by decide))).trans ?_
  refine (bind_ok (expect_cons hr)).trans ?_
  exact bind_ok (dimensions_eq_ok hexpr hes hk (by omega) (by omega) hs)

theorem namedOperand_eq_ok_call {x : Token} {es : List Expr} (h : Parenthesized (Listed Exp) us es)
    (hm : us.length < m) (hn : us.length < n) :
    namedOperand expr n x (us ++ s) = .ok (.call x.lexeme es x.location) s := by
  obtain ⟨hl, hes, hr⟩ := h
  simp only [append_append, cons_append, nil_append]
  refine (bind_ok (accept_cons hl)).trans ?_
  refine (bind_ok (arguments_eq_ok hexpr hes (by simp at hm; omega) (by simp at hn; omega)
    (by exact hr))).trans ?_
  exact bind_ok (expect_cons hr)

theorem namedOperand_eq_ok {x : Token} {es : List Expr} (h : Many (Bracketed Exp) us es)
    (hm : us.length < m) (hn : us.length < n) (hs : EndsOperand s.head.kind) :
    namedOperand expr n x (us ++ s) = .ok (reference x es) s := by
  have hne := starts_bracketed.head_many_ne h (by decide) hs.1
  refine (bind_ok (accept_of_ne hne)).trans ?_
  refine (bind_ok (indexers_eq_ok hexpr h hm hn hs.2.1)).trans ?_
  refine (bind_ok (accept_of_ne hs.2.2)).trans ?_
  cases es <;> rfl

theorem namedOperand_eq_ok_length {x d k : Token} {es : List Expr}
    (h : Many (Bracketed Exp) us es) (hd : d.kind = .dot) (hk : k.kind = .kwLength)
    (hm : us.length < m) (hn : us.length < n) :
    namedOperand expr n x (us ++ cons d (cons k s)) =
      .ok (.length (reference x es) x.location) s := by
  have hne := starts_bracketed.head_many_ne (k := .lparen) (s := cons d (cons k s)) h (by decide)
    (by simp [hd])
  refine (bind_ok (accept_of_ne hne)).trans ?_
  refine (bind_ok (indexers_eq_ok hexpr h hm hn (by simp [hd]))).trans ?_
  refine (bind_ok (accept_cons hd)).trans ?_
  refine (bind_ok (expect_cons hk)).trans ?_
  cases es <;> rfl

end Productions

theorem ofKind?_of_op {k : Token.Kind} {op : BinaryOp} (h : Op k op) :
    BinaryOp.ofKind? k = some op ∧ EndsOperand k := by
  cases h <;> decide

/-- The parser reads the operands of fewer than `n` tokens. -/
def ReadsSimple (n : Nat) (simple : Parser Expr) : Prop :=
  ∀ ⦃us e s⦄, SimpleExp us e → us.length < n → EndsOperand s.head.kind → simple (us ++ s) = .ok e s

theorem readsExp_binary {simple : Parser Expr} (hsimple : ReadsSimple n simple) :
    ReadsExp n (binary simple) := by
  intro us e s h hn hs
  cases h with
  | simple h =>
    refine (bind_ok (hsimple h hn hs.1)).trans ?_
    rw [bind_peek, hs.2]
    rfl
  | @binary us o vs op a b ha hop hb =>
    obtain ⟨hkind, hends⟩ := ofKind?_of_op hop
    simp only [append_append, cons_append]
    refine (bind_ok (hsimple ha (by simp at hn; omega) (by exact hends))).trans ?_
    rw [bind_peek, head_cons, hkind]
    exact bind_ok (hsimple hb (by simp at hn; omega) hs.1)

theorem readsSimple_simpleWithin (n : Nat) : ReadsSimple n (simpleWithin n) := by
  induction n with
  | zero =>
    intro us e s h hn
    cases hn
  | succ n ih =>
    intro us e s h hn hs
    have hexp := readsExp_binary ih
    cases h with
    | @call x us es hx hes =>
      rw [cons_append, simpleWithin, bind_peek, head_cons, hx]
      exact namedOperand_eq_ok_call hexp hes (by simp at hn; omega) (by simp at hn; omega)
    | @named x us es hx hes =>
      rw [cons_append, simpleWithin, bind_peek, head_cons, hx]
      exact namedOperand_eq_ok hexp hes (by simp at hn; omega) (by simp at hn; omega) hs
    | @length x us d k es hx hes hd hk =>
      rw [List.cons_append, cons_append, append_append, cons_append, cons_append, nil_append,
        simpleWithin, bind_peek, head_cons, hx]
      exact namedOperand_eq_ok_length hexp hes hd hk (by simp at hn; omega) (by simp at hn; omega)
    | @int t us v hv =>
      have hvalue := signedInt_eq_ok (s := s) hv
      rw [cons_append] at hvalue ⊢
      rw [simpleWithin, bind_peek, head_cons]
      obtain ⟨hliteral, -⟩ := hv
      cases hliteral with
      | plain ht _ =>
        rw [ht]
        exact bind_ok hvalue
      | negative hd ht _ =>
        rw [hd]
        exact (congrFun (if_pos (decide_eq_true ht)) _).trans (bind_ok hvalue)
    | @neg d t us e hd ht he =>
      rw [cons_append, simpleWithin, bind_peek, head_cons, hd]
      have hsecond : ¬ decide (t.kind = .intLiteral) = true := by simp [ht]
      refine (congrFun (if_neg hsecond) _).trans ?_
      exact bind_ok (ih he (Nat.lt_of_succ_lt_succ hn) hs)
    | @not b us e hb he =>
      rw [cons_append, simpleWithin, bind_peek, head_cons, hb]
      exact bind_ok (ih he (by simp at hn; omega) hs)
    | @new w i us vs ws e es k hw hi he hes hk =>
      simp only [append_append, cons_append]
      rw [simpleWithin, bind_peek, head_cons, hw]
      exact newArray_eq_ok hexp hi he hes hk (by simp at hn; omega) (by simp at hn; omega) hs.2.1
    | @null t ht =>
      rw [cons_append, simpleWithin, bind_peek, head_cons, ht]
      rfl
    | parens h =>
      obtain ⟨hl, he, hr⟩ := h
      simp only [append_append, cons_append, nil_append]
      rw [simpleWithin, bind_peek, head_cons, hl]
      refine (bind_ok (hexp he (by simp at hn; omega) (hr ▸ by decide))).trans ?_
      exact bind_ok (expect_cons hr)

theorem readsExp_expressionWithin (n : Nat) : ReadsExp n (expressionWithin n) :=
  readsExp_binary (readsSimple_simpleWithin n)

/-! ## Statements -/

/-- The parser reads the statements of fewer than `n` tokens. -/
def ReadsStm (n : Nat) (stmt : Parser Stmt) : Prop :=
  ∀ ⦃us st s⦄, Stm us st → us.length < n → (st.takesElse → s.head.kind ≠ .kwElse) →
    stmt (us ++ s) = .ok st s

section Productions

variable {expr : Parser Expr} (hexpr : ReadsExp m expr)

include hexpr

theorem parenthesized_eq_ok {e : Expr} (h : Parenthesized Exp us e) (hm : us.length < m) :
    parenthesized expr (us ++ s) = .ok e s := by
  obtain ⟨hl, he, hr⟩ := h
  simp only [append_append, cons_append, nil_append]
  refine (bind_ok (expect_cons hl)).trans ?_
  refine (bind_ok (hexpr he (by simp at hm; omega) (hr ▸ by decide))).trans ?_
  exact bind_ok (expect_cons hr)

theorem namedStatement_eq_ok_call {x z : Token} {es : List Expr}
    (h : Parenthesized (Listed Exp) us es) (hz : z.kind = .semicolon) (hm : us.length < m)
    (hn : us.length < n) :
    namedStatement expr n x (us ++ cons z s) = .ok (.call x.lexeme es x.location) s := by
  obtain ⟨hl, hes, hr⟩ := h
  simp only [append_append, cons_append, nil_append]
  refine (bind_ok (accept_cons hl)).trans ?_
  refine (bind_ok (arguments_eq_ok hexpr hes (by simp at hm; omega) (by simp at hn; omega)
    (by exact hr))).trans ?_
  refine (bind_ok (expect_cons hr)).trans ?_
  exact bind_ok (expect_cons hz)

theorem namedStatement_eq_ok_assign {x q z : Token} {es : List Expr} {e : Expr}
    (hes : Many (Bracketed Exp) us es) (hq : q.kind = .assign) (he : Exp vs e)
    (hz : z.kind = .semicolon) (hm : us.length + vs.length < m) (hn : us.length < n) :
    namedStatement expr n x (us ++ cons q (vs ++ cons z s)) = .ok (assignment x e es) s := by
  have hne := starts_bracketed.head_many_ne (k := .lparen) (s := cons q (vs ++ cons z s)) hes
    (by decide) (by simp [hq])
  refine (bind_ok (accept_of_ne hne)).trans ?_
  refine (bind_ok (indexers_eq_ok hexpr hes (by omega) hn (by simp [hq]))).trans ?_
  refine (bind_ok (accept_cons hq)).trans ?_
  refine (bind_ok (hexpr he (by omega) (hz ▸ by decide))).trans ?_
  refine (bind_ok (expect_cons hz)).trans ?_
  cases es <;> rfl

theorem printStatement_eq_ok {k : PrintKind} {l : Location} {z : Token} {e : Expr} (he : Exp us e)
    (hz : z.kind = .semicolon) (hm : us.length < m) :
    printStatement expr k l (us ++ cons z s) = .ok (.print k e l) s := by
  refine (bind_ok (hexpr he hm (hz ▸ by decide))).trans ?_
  exact bind_ok (expect_cons hz)

theorem returnStatement_eq_ok {l : Location} {z : Token} {e : Expr} (he : Exp us e)
    (hz : z.kind = .semicolon) (hm : us.length < m) :
    returnStatement expr l (us ++ cons z s) = .ok (.ret (some e) l) s := by
  refine (bind_ok (accept_of_ne (starts_exp.head_ne he (by decide) _))).trans ?_
  refine (bind_ok (hexpr he hm (hz ▸ by decide))).trans ?_
  exact bind_ok (expect_cons hz)

end Productions

section Nested

variable {stmt : Parser Stmt} (hstmt : ReadsStm m stmt)

include hstmt

theorem statementsUntil_eq_ok {stop : Token.Kind} {ss : List Stmt} {declarable : Bool}
    (h : Many Stm us ss) (hstop : stop ∉ statementStart) (helse : stop ≠ .kwElse)
    (hm : us.length < m) (hn : us.length < n) (hs : s.head.kind = stop) :
    statementsUntil stmt stop n declarable (us ++ s) = .ok ss s := by
  induction h generalizing n declarable with
  | nil =>
    obtain ⟨n, rfl⟩ : ∃ m, n = m + 1 := Nat.exists_eq_add_one.2 (by omega)
    rw [statementsUntil, bind_peek]
    exact congrFun (if_pos hs) s
  | @cons us vs st ss hst hss ih =>
    obtain ⟨n, rfl⟩ : ∃ m, n = m + 1 := Nat.exists_eq_add_one.2 (by omega)
    obtain ⟨t, ts, hts, -⟩ := starts_stm hst
    have hfollow : (vs ++ s).head.kind ≠ .kwElse :=
      starts_stm.head_many_ne hss (by decide) (by rw [hs]; exact helse)
    rw [append_append, statementsUntil, bind_peek]
    refine (congrFun (if_neg (starts_stm.head_ne hst hstop _)) _).trans ?_
    refine (congrFun (if_pos (starts_stm.head hst _)) _).trans ?_
    refine (bind_ok (hstmt hst (by simp at hm; omega) fun _ => hfollow)).trans ?_
    exact bind_ok (ih (by simp at hm; omega) (by simp [hts] at hn; omega))

theorem switchCases_eq_ok {cs : List SwitchCase} (h : Many (Case Stm) us cs)
    (hm : us.length < m) (hn : us.length < n) (hs : s.head.kind = .kwDefault) :
    switchCases stmt n (us ++ s) = .ok cs s := by
  induction h generalizing n with
  | nil =>
    obtain ⟨n, rfl⟩ : ∃ m, n = m + 1 := Nat.exists_eq_add_one.2 (by omega)
    rw [switchCases, bind_peek]
    exact congrFun (if_pos hs) s
  | @cons us ws c cs hcase hcs ih =>
    obtain ⟨n, rfl⟩ : ∃ m, n = m + 1 := Nat.exists_eq_add_one.2 (by omega)
    have hfollow : (ws ++ s).head.kind ≠ .kwElse :=
      starts_case.head_many_ne hcs (by decide) (by rw [hs]; decide)
    obtain ⟨hc, hv, hd, hst⟩ := hcase
    simp only [append_append, cons_append]
    rw [switchCases, bind_peek, head_cons, hc]
    refine (bind_ok (signedInt_eq_ok hv)).trans ?_
    refine (bind_ok (expect_cons hd)).trans ?_
    refine (bind_ok (hstmt hst (by simp at hm; omega) fun _ => hfollow)).trans ?_
    exact bind_ok (ih (by simp at hm; omega) (by simp at hn; omega))

theorem blockStatement_eq_ok {l : Location} {r : Token} {ss : List Stmt} (h : Many Stm us ss)
    (hr : r.kind = .rbrace) (hm : us.length < m) (hn : us.length < n) :
    blockStatement stmt n l (us ++ cons r s) = .ok (.block ss l) s := by
  refine (bind_ok (statementsUntil_eq_ok hstmt h (by decide) (by decide) hm hn
    (by exact hr))).trans ?_
  exact bind_ok (expect_cons hr)

variable {expr : Parser Expr} (hexpr : ReadsExp m expr)

include hexpr

theorem ifStatement_eq_ok {l : Location} {c : Expr} {st : Stmt} (hc : Parenthesized Exp us c)
    (hst : Stm vs st) (hm : us.length + vs.length < m) (hs : s.head.kind ≠ .kwElse) :
    ifStatement expr stmt l (us ++ (vs ++ s)) = .ok (.ifThen c st l) s := by
  refine (bind_ok (parenthesized_eq_ok hexpr hc (by omega))).trans ?_
  refine (bind_ok (hstmt hst (by omega) fun _ => hs)).trans ?_
  exact bind_ok (accept_of_ne hs)

theorem ifStatement_eq_ok_else {l : Location} {j : Token} {c : Expr} {st₁ st₂ : Stmt}
    (hc : Parenthesized Exp us c) (hst₁ : Stm vs st₁) (hclosed : st₁.takesElse = false)
    (hj : j.kind = .kwElse) (hst₂ : Stm ws st₂) (hm : us.length + vs.length + ws.length < m)
    (hs : st₂.takesElse → s.head.kind ≠ .kwElse) :
    ifStatement expr stmt l (us ++ (vs ++ cons j (ws ++ s))) = .ok (.ifElse c st₁ st₂ l) s := by
  refine (bind_ok (parenthesized_eq_ok hexpr hc (by omega))).trans ?_
  refine (bind_ok (hstmt hst₁ (by omega) fun htakes => absurd htakes (by simp [hclosed]))).trans ?_
  refine (bind_ok (accept_cons hj)).trans ?_
  exact bind_ok (hstmt hst₂ (by omega) hs)

theorem whileStatement_eq_ok {l : Location} {c : Expr} {st : Stmt} (hc : Parenthesized Exp us c)
    (hst : Stm vs st) (hm : us.length + vs.length < m)
    (hs : st.takesElse → s.head.kind ≠ .kwElse) :
    whileStatement expr stmt l (us ++ (vs ++ s)) = .ok (.whileDo c st l) s := by
  refine (bind_ok (parenthesized_eq_ok hexpr hc (by omega))).trans ?_
  exact bind_ok (hstmt hst (by omega) hs)

theorem switchStatement_eq_ok {loc : Location} {l d k r : Token} {e : Expr} {cs : List SwitchCase}
    {st : Stmt} (he : Parenthesized Exp us e) (hl : l.kind = .lbrace)
    (hcs : Many (Case Stm) vs cs) (hd : d.kind = .kwDefault) (hk : k.kind = .colon)
    (hst : Stm ws st) (hr : r.kind = .rbrace) (hm : us.length + vs.length + ws.length < m)
    (hn : vs.length < n) :
    switchStatement expr stmt n loc
      (us ++ cons l (vs ++ cons d (cons k (ws ++ cons r s)))) = .ok (.switch e cs st loc) s := by
  refine (bind_ok (parenthesized_eq_ok hexpr he (by omega))).trans ?_
  refine (bind_ok (expect_cons hl)).trans ?_
  refine (bind_ok (switchCases_eq_ok hstmt hcs (by omega) hn (by exact hd))).trans ?_
  refine (bind_ok (expect_cons hd)).trans ?_
  refine (bind_ok (expect_cons hk)).trans ?_
  refine (bind_ok (hstmt hst (by omega) fun _ => by simp [hr])).trans ?_
  exact bind_ok (expect_cons hr)

end Nested

theorem readsStm_statementWithin (n : Nat) : ReadsStm n (statementWithin n) := by
  induction n with
  | zero =>
    intro us st s h hn
    cases hn
  | succ n ih =>
    intro us st s h hn hs
    have hexp := readsExp_expressionWithin n
    cases h with
    | @call x us z es hx hes hz =>
      simp only [append_append, cons_append, nil_append]
      rw [statementWithin, bind_peek, head_cons, hx]
      exact namedStatement_eq_ok_call hexp hes hz (by simp at hn; omega) (by simp at hn; omega)
    | @assign x us q vs z es e hx hes hq he hz =>
      simp only [append_append, cons_append, nil_append]
      rw [statementWithin, bind_peek, head_cons, hx]
      exact namedStatement_eq_ok_assign hexp hes hq he hz (by simp at hn; omega)
        (by simp at hn; omega)
    | @ifThen i us vs c st hi hc hst =>
      simp only [append_append, cons_append]
      rw [statementWithin, bind_peek, head_cons, hi]
      exact ifStatement_eq_ok ih hexp hc hst (by simp at hn; omega) (hs rfl)
    | @ifElse i us vs j ws c st₁ st₂ hi hc hst₁ hclosed hj hst₂ =>
      simp only [append_append, cons_append]
      rw [statementWithin, bind_peek, head_cons, hi]
      exact ifStatement_eq_ok_else ih hexp hc hst₁ hclosed hj hst₂ (by simp at hn; omega) hs
    | @whileDo w us vs c st hw hc hst =>
      simp only [append_append, cons_append]
      rw [statementWithin, bind_peek, head_cons, hw]
      exact whileStatement_eq_ok ih hexp hc hst (by simp at hn; omega) hs
    | @switch w us l vs d k ws r e cs st hw he hl hcs hd hk hst hr =>
      simp only [append_append, cons_append, nil_append]
      rw [statementWithin, bind_peek, head_cons, hw]
      exact switchStatement_eq_ok ih hexp he hl hcs hd hk hst hr (by simp at hn; omega)
        (by simp at hn; omega)
    | @block l us r ss hl hss hr =>
      simp only [append_append, cons_append, nil_append]
      rw [statementWithin, bind_peek, head_cons, hl]
      exact blockStatement_eq_ok ih hss hr (by simp at hn; omega) (by simp at hn; omega)
    | @print w us z k e hw he hz =>
      simp only [append_append, cons_append, nil_append]
      rw [statementWithin, bind_peek, head_cons]
      generalize hkind : w.kind = kind at hw
      cases hw <;> exact printStatement_eq_ok hexp he hz (by simp at hn; omega)
    | @newline w z hw hz =>
      simp only [cons_append, nil_append]
      rw [statementWithin, bind_peek, head_cons, hw]
      exact bind_ok (expect_cons hz)
    | @ret w z hw hz =>
      simp only [cons_append, nil_append]
      rw [statementWithin, bind_peek, head_cons, hw]
      exact bind_ok (accept_cons hz)
    | @retValue w us z e hw he hz =>
      simp only [append_append, cons_append, nil_append]
      rw [statementWithin, bind_peek, head_cons, hw]
      exact returnStatement_eq_ok hexp he hz (by simp at hn; omega)

/-! ## Declarations and programs -/

theorem varType_eq_ok {ty : VarType} (h : TypeName us ty) (hn : us.length ≤ n)
    (hs : s.head.kind ≠ .lbracket) : varType n (us ++ s) = .ok ty s := by
  obtain ⟨ht, hk⟩ := h
  simp only [cons_append]
  refine (bind_ok (expect_cons ht)).trans ?_
  exact bind_ok (emptyBrackets_eq_ok hk (by simp at hn; omega) hs)

theorem identifier_eq_ok {x : Token} (hx : x.kind = .ident) :
    identifier (cons x s) = .ok x.lexeme s :=
  bind_ok (expect_cons hx)

theorem typedName_eq_ok {d : Decl} (h : TypedName us d) (hn : us.length ≤ n + 1) :
    typedName n (us ++ s) = .ok d s := by
  obtain ⟨hty, hx⟩ := h
  rw [append_append, typedName, bind_peek]
  rw [List.length_append] at hn
  refine (bind_ok (varType_eq_ok hty (Nat.le_of_succ_le_succ hn) (by simp [hx]))).trans ?_
  exact bind_ok (identifier_eq_ok hx)

theorem declarations_eq_ok {ds : List Decl} (h : Many VarDecl us ds) (hn : us.length < n)
    (hs : s.head.kind ≠ .kwInt) : declarations n (us ++ s) = .ok ds s := by
  induction h generalizing n with
  | nil =>
    obtain ⟨n, rfl⟩ : ∃ m, n = m + 1 := Nat.exists_eq_add_one.2 hn
    exact congrFun (if_neg (by simpa using hs)) s
  | @cons us vs d ds hd _ ih =>
    have hint : ∀ s : TokenStream, (us ++ s).head.kind = .kwInt := fun s => by
      simpa using starts_varDecl.head hd s
    obtain ⟨hd, hz⟩ := hd
    obtain ⟨n, rfl⟩ : ∃ m, n = m + 1 := Nat.exists_eq_add_one.2 (by omega)
    rw [append_append]
    refine (congrFun (if_pos (decide_eq_true (hint _))) _).trans ?_
    simp only [append_append, cons_append, nil_append]
    refine (bind_ok (typedName_eq_ok hd (by simp at hn; omega))).trans ?_
    refine (bind_ok (expect_cons hz)).trans ?_
    exact bind_ok (ih (by simp at hn; omega))

theorem typedNames_eq_ok {ds : List Decl} (h : Separated TypedName us ds) (hn : us.length < n)
    (hs : s.head.kind ≠ .comma) : typedNames n (us ++ s) = .ok ds s := by
  induction h generalizing n with
  | one hd =>
    obtain ⟨n, rfl⟩ : ∃ m, n = m + 1 := Nat.exists_eq_add_one.2 (by omega)
    refine (bind_ok (typedName_eq_ok hd (by omega))).trans ?_
    exact bind_ok (accept_of_ne hs)
  | @more us c vs d ds hd hc _ ih =>
    obtain ⟨n, rfl⟩ : ∃ m, n = m + 1 := Nat.exists_eq_add_one.2 (by omega)
    simp only [append_append, cons_append]
    refine (bind_ok (typedName_eq_ok hd (by simp at hn; omega))).trans ?_
    refine (bind_ok (accept_cons hc)).trans ?_
    exact bind_ok (ih (by simp at hn; omega))

theorem formals_eq_ok {ds : List Decl} (h : Listed TypedName us ds) (hn : us.length < n)
    (hs : s.head.kind = .rparen) : formals n (us ++ s) = .ok ds s := by
  cases h with
  | none => exact congrFun (if_neg (by simp [hs])) s
  | some h =>
    have hint : (us ++ s).head.kind = .kwInt := by
      simpa using (starts_separated starts_typedName).head h s
    refine (congrFun (if_pos (decide_eq_true hint)) _).trans ?_
    exact typedNames_eq_ok h hn (by simp [hs])

/-- What follows the opening token of a body. -/
theorem body_eq_ok {closing : Token.Kind} {r : Token} {ds : List Decl} {ss : List Stmt}
    (hds : Many VarDecl us ds) (hss : Many Stm vs ss) (hr : r.kind = closing)
    (hclosing : closing ∉ .kwElse :: .kwInt :: statementStart) (hn : us.length + vs.length < n) :
    body closing n (us ++ (vs ++ cons r s)) = .ok (ds, ss) s := by
  simp only [List.mem_cons, not_or] at hclosing
  obtain ⟨helse, hint, hstart⟩ := hclosing
  refine (bind_ok (declarations_eq_ok hds (by omega) ?_)).trans ?_
  · exact starts_stm.head_many_ne hss (by decide) (by rw [head_cons, hr]; exact hint)
  refine (bind_ok (statementsUntil_eq_ok (readsStm_statementWithin n) hss hstart helse (by omega)
    (by omega) (by exact hr))).trans ?_
  exact bind_ok (expect_cons hr)

theorem methodRest_eq_ok {type : Option VarType} {l : Location} {m : Method}
    (h : MethodRest type l us m) (hn : us.length ≤ n) :
    methodRest n type l (us ++ s) = .ok m s := by
  obtain ⟨hx, ⟨hp, hps, hq⟩, ⟨hl, hds, hss, hr⟩⟩ := h
  simp only [append_append, cons_append, nil_append]
  refine (bind_ok (identifier_eq_ok hx)).trans ?_
  refine (bind_ok (expect_cons hp)).trans ?_
  refine (bind_ok (formals_eq_ok hps (by simp at hn; omega) (by exact hq))).trans ?_
  refine (bind_ok (expect_cons hq)).trans ?_
  refine (bind_ok (expect_cons hl)).trans ?_
  exact bind_ok (body_eq_ok hds hss hr (by decide) (by simp at hn; omega))

theorem methods_eq_ok {ms : List Method} (h : Many MethodDef us ms) (hn : us.length < n)
    (hs : s.head.kind = .eof) : methods n (us ++ s) = .ok ms s := by
  induction h generalizing n with
  | nil =>
    obtain ⟨n, rfl⟩ : ∃ m, n = m + 1 := Nat.exists_eq_add_one.2 hn
    rw [nil_append, methods, bind_peek, hs]
    rfl
  | @cons us vs m ms hm _ ih =>
    cases hm with
    | @function f us us' ty m hf hty hm =>
      obtain ⟨n, rfl⟩ : ∃ m, n = m + 1 := Nat.exists_eq_add_one.2 (by omega)
      have hident : (us' ++ (vs ++ s)).head.kind ≠ .lbracket := by
        obtain ⟨hx, -, -⟩ := hm
        simp [hx]
      simp only [append_append, cons_append]
      rw [methods, bind_peek, head_cons, hf]
      refine (bind_ok (varType_eq_ok hty (by simp at hn; omega) hident)).trans ?_
      refine (bind_ok (methodRest_eq_ok hm (by simp at hn; omega))).trans ?_
      exact bind_ok (ih (by simp at hn; omega))
    | @procedure f us m hf hm =>
      obtain ⟨n, rfl⟩ : ∃ m, n = m + 1 := Nat.exists_eq_add_one.2 (by omega)
      simp only [append_append, cons_append]
      rw [methods, bind_peek, head_cons, hf]
      refine (bind_ok (methodRest_eq_ok hm (by simp at hn; omega))).trans ?_
      exact bind_ok (ih (by simp at hn; omega))

theorem programWithin_eq_ok {p : Lpl.Program} (h : Grammar.Program us p) (hn : us.length ≤ n)
    (hs : s.head.kind = .eof) : programWithin n (us ++ s) = .ok p s := by
  obtain ⟨⟨hl, hds, hss, hr⟩, hms⟩ := h
  simp only [append_append, cons_append, nil_append]
  refine (bind_ok (expect_cons hl)).trans ?_
  refine (bind_ok (body_eq_ok hds hss hr (by decide) (by simp at hn; omega))).trans ?_
  refine (bind_ok (methods_eq_ok hms (by simp at hn; omega) hs)).trans ?_
  exact congrFun (if_pos (decide_eq_true hs)) s

end Lpl.Parser
