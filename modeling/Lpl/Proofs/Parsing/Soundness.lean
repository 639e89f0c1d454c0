import Lpl.Proofs.Parsing.Basic

/-!
# What parsers read is derived by the grammar
-/

namespace Lpl.Parser

open TokenStream Grammar

variable {α : Type}

/-! ## Expressions -/

theorem reads_emptyBrackets (n : Nat) : Reads (emptyBrackets n) fun us k _ => EmptyBrackets us k := by
  induction n with
  | zero =>
    intro s k s' hs h
    cases h
  | succ n ih =>
    intro s k s' hs h
    rcases accept_inv (by decide) hs h with ⟨l, s₁, rfl, hs₁, hl, h₁⟩ | ⟨-, h₁⟩
    · obtain ⟨r, s₂, rfl, hs₂, hr, h₂⟩ := expect_inv (by decide) hs₁ h₁
      obtain ⟨us, m, s₃, rfl, hs₃, hus, h₃⟩ := ih.bind_inv hs₂ h₂
      cases h₃
      exact ⟨l :: r :: us, rfl, hs₃, .more hl hr hus⟩
    · cases h₁
      exact ⟨[], rfl, hs, .none⟩

theorem reads_signedInt : Reads signedInt fun us v _ => SignedInt us v := by
  intro s v s' hs h
  obtain ⟨negative, s₁, haccept, h₁⟩ := bind_eq_ok.1 h
  obtain ⟨hs₁, hsign⟩ := accept_eq_ok (by decide) hs haccept
  obtain ⟨t, s₂, rfl, hs₂, ht, h₂⟩ := expect_inv (by decide) hs₁ h₁
  cases hvalue : literalValue negative t with
  | error e =>
    rw [hvalue] at h₂
    cases h₂
  | ok w =>
    rw [hvalue] at h₂
    cases h₂
    have hdigits := hs₁.digits t List.mem_cons_self ht
    obtain ⟨n, hn, hrange, rfl⟩ := (literalValue_eq_ok_iff hdigits).1 hvalue
    rcases hsign with ⟨sign, rfl, hkind, rfl⟩ | ⟨rfl, -, rfl⟩
    · exact ⟨[sign, t], rfl, hs₂, .mk (.negative hkind ht hn) hrange⟩
    · exact ⟨[t], rfl, hs₂, .mk (.plain ht hn) hrange⟩

section Productions

variable {expr : Parser Expr} (hexpr : Reads expr fun us e _ => Exp us e)

include hexpr

theorem reads_indexers (n : Nat) :
    Reads (indexers expr n) fun us es _ => Many (Bracketed Exp) us es := by
  induction n with
  | zero =>
    intro s es s' hs h
    cases h
  | succ n ih =>
    intro s es s' hs h
    rcases accept_inv (by decide) hs h with ⟨l, s₁, rfl, hs₁, hl, h₁⟩ | ⟨-, h₁⟩
    · obtain ⟨us, e, s₂, rfl, hs₂, he, h₂⟩ := hexpr.bind_inv hs₁ h₁
      obtain ⟨r, s₃, rfl, hs₃, hr, h₃⟩ := expect_inv (by decide) hs₂ h₂
      obtain ⟨vs, es, s₄, rfl, hs₄, hes, h₄⟩ := ih.bind_inv hs₃ h₃
      cases h₄
      exact ⟨l :: us ++ [r] ++ vs, by simp, hs₄, .cons (.mk hl he hr) hes⟩
    · cases h₁
      exact ⟨[], rfl, hs, .nil⟩

theorem reads_expressions (n : Nat) :
    Reads (expressions expr n) fun us es _ => Separated Exp us es := by
  induction n with
  | zero =>
    intro s es s' hs h
    cases h
  | succ n ih =>
    intro s es s' hs h
    obtain ⟨us, e, s₁, rfl, hs₁, he, h₁⟩ := hexpr.bind_inv hs h
    rcases accept_inv (by decide) hs₁ h₁ with ⟨c, s₂, rfl, hs₂, hc, h₂⟩ | ⟨-, h₂⟩
    · obtain ⟨vs, es, s₃, rfl, hs₃, hes, h₃⟩ := ih.bind_inv hs₂ h₂
      cases h₃
      exact ⟨us ++ c :: vs, by simp, hs₃, .more he hc hes⟩
    · cases h₂
      exact ⟨us, rfl, hs₁, .one he⟩

theorem reads_arguments (n : Nat) : Reads (arguments expr n) fun us es _ => Listed Exp us es := by
  intro s es s' hs h
  rcases sees_inv h with ⟨-, h₁⟩ | ⟨-, h₁⟩
  · cases h₁
    exact ⟨[], rfl, hs, .none⟩
  · obtain ⟨us, rfl, hs', hes⟩ := reads_expressions hexpr n hs h₁
    exact ⟨us, rfl, hs', .some hes⟩

theorem reads_dimensions (n : Nat) :
    Reads (dimensions expr n) fun us d _ => ∃ vs ws, us = vs ++ ws ∧
      Many (Bracketed Exp) vs d.1 ∧ EmptyBrackets ws d.2 := by
  induction n with
  | zero =>
    intro s d s' hs h
    cases h
  | succ n ih =>
    intro s d s' hs h
    rcases accept_inv (by decide) hs h with ⟨l, s₁, rfl, hs₁, hl, h₁⟩ | ⟨-, h₁⟩
    · rcases accept_inv (by decide) hs₁ h₁ with ⟨r, s₂, rfl, hs₂, hr, h₂⟩ | ⟨-, h₂⟩
      · obtain ⟨ws, k, s₃, rfl, hs₃, hws, h₃⟩ := (reads_emptyBrackets n).bind_inv hs₂ h₂
        cases h₃
        exact ⟨l :: r :: ws, rfl, hs₃, [], _, rfl, .nil, .more hl hr hws⟩
      · obtain ⟨us, e, s₃, rfl, hs₃, he, h₃⟩ := hexpr.bind_inv hs₁ h₂
        obtain ⟨r, s₄, rfl, hs₄, hr, h₄⟩ := expect_inv (by decide) hs₃ h₃
        obtain ⟨_, ⟨es, k⟩, s₅, rfl, hs₅, ⟨vs, ws, rfl, hvs, hws⟩, h₅⟩ := ih.bind_inv hs₄ h₄
        cases h₅
        exact ⟨l :: us ++ [r] ++ vs ++ ws, by simp, hs₅, _, _, rfl, .cons (.mk hl he hr) hvs, hws⟩
    · cases h₁
      exact ⟨[], rfl, hs, [], [], rfl, .nil, .none⟩

/-- What follows a `new`. -/
theorem reads_newArray (n : Nat) {w : Token} (hw : w.kind = .kwNew) :
    Reads (newArray expr n w.location) fun us e _ => SimpleExp (w :: us) e := by
  intro s e s' hs h
  obtain ⟨i, s₁, rfl, hs₁, hi, h₁⟩ := expect_inv (by decide) hs h
  obtain ⟨l, s₂, rfl, hs₂, hl, h₂⟩ := expect_inv (by decide) hs₁ h₁
  obtain ⟨us, e, s₃, rfl, hs₃, he, h₃⟩ := hexpr.bind_inv hs₂ h₂
  obtain ⟨r, s₄, rfl, hs₄, hr, h₄⟩ := expect_inv (by decide) hs₃ h₃
  obtain ⟨_, ⟨es, k⟩, s₅, rfl, hs₅, ⟨vs, ws, rfl, hvs, hws⟩, h₅⟩ :=
    (reads_dimensions hexpr n).bind_inv hs₄ h₄
  cases h₅
  exact ⟨i :: (l :: us ++ [r]) ++ vs ++ ws, by simp, hs₅, .new hw hi (.mk hl he hr) hvs hws⟩

/-- What follows an identifier in an expression. -/
theorem reads_namedOperand (n : Nat) {x : Token} (hx : x.kind = .ident) :
    Reads (namedOperand expr n x) fun us e _ => SimpleExp (x :: us) e := by
  intro s e s' hs h
  rcases accept_inv (by decide) hs h with ⟨l, s₁, rfl, hs₁, hl, h₁⟩ | ⟨-, h₁⟩
  · obtain ⟨us, es, s₂, rfl, hs₂, hes, h₂⟩ := (reads_arguments hexpr n).bind_inv hs₁ h₁
    obtain ⟨r, s₃, rfl, hs₃, hr, h₃⟩ := expect_inv (by decide) hs₂ h₂
    cases h₃
    exact ⟨l :: us ++ [r], by simp, hs₃, .call hx (.mk hl hes hr)⟩
  · obtain ⟨us, es, s₁, rfl, hs₁, hes, h₂⟩ := (reads_indexers hexpr n).bind_inv hs h₁
    rcases accept_inv (by decide) hs₁ h₂ with ⟨d, s₂, rfl, hs₂, hd, h₃⟩ | ⟨-, h₃⟩
    · obtain ⟨k, s₃, rfl, hs₃, hk, h₄⟩ := expect_inv (by decide) hs₂ h₃
      cases h₄
      refine ⟨us ++ [d, k], by simp, hs₃, ?_⟩
      cases es <;> exact .length hx hes hd hk
    · cases h₃
      refine ⟨us, rfl, hs₁, ?_⟩
      cases es <;> exact .named hx hes

end Productions

theorem op_of_ofKind? {k : Token.Kind} {op : BinaryOp} (h : BinaryOp.ofKind? k = some op) :
    Op k op := by
  unfold BinaryOp.ofKind? at h
  split at h <;> cases h <;> constructor

theorem reads_binary {simple : Parser Expr} (hsimple : Reads simple fun us e _ => SimpleExp us e) :
    Reads (binary simple) fun us e _ => Exp us e := by
  intro s e s' hs h
  obtain ⟨us, a, s₁, rfl, hs₁, ha, h₁⟩ := hsimple.bind_inv hs h
  rw [bind_peek] at h₁
  cases hop : BinaryOp.ofKind? s₁.head.kind with
  | none =>
    rw [hop] at h₁
    cases h₁
    exact ⟨us, rfl, hs₁, .simple ha⟩
  | some op =>
    rw [hop] at h₁
    have hne : s₁.head.kind ≠ .eof := by
      intro heof
      rw [heof] at hop
      cases hop
    obtain ⟨o, s₂, rfl, hs₂, ho⟩ := hs₁.exists_cons hne rfl
    obtain ⟨vs, b, s₃, rfl, hs₃, hb, h₂⟩ := hsimple.bind_inv hs₂ h₁
    cases h₂
    exact ⟨us ++ o :: vs, by simp, hs₃, .binary ha (op_of_ofKind? hop) hb⟩

theorem reads_int {s s' : TokenStream} {e : Expr} (hs : Clean s)
    (h : (do return .int (← signedInt) s.head.location : Parser Expr) s = .ok e s') :
    ∃ us, s = us ++ s' ∧ Clean s' ∧ SimpleExp us e := by
  obtain ⟨us, v, s₁, rfl, hs₁, hv, h₁⟩ := reads_signedInt.bind_inv hs h
  cases h₁
  obtain ⟨t, vs, rfl, -⟩ := starts_signedInt hv
  exact ⟨t :: vs, rfl, hs₁, .int hv⟩

theorem reads_simpleWithin (n : Nat) : Reads (simpleWithin n) fun us e _ => SimpleExp us e := by
  induction n with
  | zero =>
    intro s e s' hs h
    cases h
  | succ n ih =>
    intro s e s' hs h
    have hexp := reads_binary ih
    rw [simpleWithin] at h
    -- One case for each kind of token that an operand can start with.
    obtain ⟨x, hx, h₁⟩ := peek_inv h
    split at hx
    all_goals subst hx
    · next hk =>
      obtain ⟨t, s₁, rfl, hs₁, ht⟩ := hs.exists_cons (by decide) hk
      exact Reads.after (R := fun us e _ => SimpleExp us e) (reads_namedOperand hexp n ht) hs₁ h₁
    · exact reads_int hs h₁
    · next hk =>
      rw [bind_seesSecond] at h₁
      by_cases hsecond : s.second.kind = .intLiteral
      · exact reads_int hs ((congrFun (if_pos (decide_eq_true hsecond)) s).symm.trans h₁)
      · have h₂ := (congrFun (if_neg (by simp [hsecond])) s).symm.trans h₁
        obtain ⟨m, s₁, rfl, hs₁, hm⟩ := hs.exists_cons (by decide) hk
        obtain ⟨us, e, s₂, rfl, hs₂, he, h₃⟩ := ih.bind_inv hs₁ h₂
        cases h₃
        obtain ⟨t, vs, rfl, -⟩ := starts_simpleExp he
        exact ⟨m :: t :: vs, rfl, hs₂, .neg hm hsecond he⟩
    · next hk =>
      obtain ⟨b, s₁, rfl, hs₁, hb⟩ := hs.exists_cons (by decide) hk
      obtain ⟨us, e, s₂, rfl, hs₂, he, h₂⟩ := ih.bind_inv hs₁ h₁
      cases h₂
      exact ⟨b :: us, rfl, hs₂, .not hb he⟩
    · next hk =>
      obtain ⟨w, s₁, rfl, hs₁, hw⟩ := hs.exists_cons (by decide) hk
      exact Reads.after (R := fun us e _ => SimpleExp us e) (reads_newArray hexp n hw) hs₁ h₁
    · next hk =>
      obtain ⟨t, s₁, rfl, hs₁, ht⟩ := hs.exists_cons (by decide) hk
      cases h₁
      exact ⟨[t], rfl, hs₁, .null ht⟩
    · next hk =>
      obtain ⟨l, s₁, rfl, hs₁, hl⟩ := hs.exists_cons (by decide) hk
      obtain ⟨us, e, s₂, rfl, hs₂, he, h₂⟩ := hexp.bind_inv hs₁ h₁
      obtain ⟨r, s₃, rfl, hs₃, hr, h₃⟩ := expect_inv (by decide) hs₂ h₂
      cases h₃
      exact ⟨l :: us ++ [r], by simp, hs₃, .parens (.mk hl he hr)⟩
    · cases h₁

theorem reads_expressionWithin (n : Nat) : Reads (expressionWithin n) fun us e _ => Exp us e :=
  reads_binary (reads_simpleWithin n)

/-! ## Statements -/

/-- The tokens `us` before `rest` are a statement, and no `ELSE` follows that it could take. -/
def IsStatement (us : List Token) (s : Stmt) (rest : TokenStream) : Prop :=
  Stm us s ∧ (s.takesElse → rest.head.kind ≠ .kwElse)

theorem IsStatement.of_closed {us : List Token} {s : Stmt} {rest : TokenStream} (h : Stm us s)
    (hclosed : s.takesElse = false) : IsStatement us s rest :=
  ⟨h, fun htakes => absurd htakes (by simp [hclosed])⟩

section Productions

variable {expr : Parser Expr} (hexpr : Reads expr fun us e _ => Exp us e)

include hexpr

theorem reads_parenthesized :
    Reads (parenthesized expr) fun us e _ => Parenthesized Exp us e := by
  intro s e s' hs h
  obtain ⟨l, s₁, rfl, hs₁, hl, h₁⟩ := expect_inv (by decide) hs h
  obtain ⟨us, e, s₂, rfl, hs₂, he, h₂⟩ := hexpr.bind_inv hs₁ h₁
  obtain ⟨r, s₃, rfl, hs₃, hr, h₃⟩ := expect_inv (by decide) hs₂ h₂
  cases h₃
  exact ⟨l :: us ++ [r], by simp, hs₃, .mk hl he hr⟩

theorem reads_namedStatement (n : Nat) {x : Token} (hx : x.kind = .ident) :
    Reads (namedStatement expr n x) fun us s => IsStatement (x :: us) s := by
  intro s st s' hs h
  rcases accept_inv (by decide) hs h with ⟨l, s₁, rfl, hs₁, hl, h₁⟩ | ⟨-, h₁⟩
  · obtain ⟨us, es, s₂, rfl, hs₂, hes, h₂⟩ := (reads_arguments hexpr n).bind_inv hs₁ h₁
    obtain ⟨r, s₃, rfl, hs₃, hr, h₃⟩ := expect_inv (by decide) hs₂ h₂
    obtain ⟨z, s₄, rfl, hs₄, hz, h₄⟩ := expect_inv (by decide) hs₃ h₃
    cases h₄
    exact ⟨l :: us ++ [r] ++ [z], by simp, hs₄, .of_closed (.call hx (.mk hl hes hr) hz) rfl⟩
  · obtain ⟨us, es, s₁, rfl, hs₁, hes, h₂⟩ := (reads_indexers hexpr n).bind_inv hs h₁
    rcases accept_inv (by decide) hs₁ h₂ with ⟨q, s₂, rfl, hs₂, hq, h₃⟩ | ⟨-, h₃⟩
    · obtain ⟨vs, e, s₃, rfl, hs₃, he, h₄⟩ := hexpr.bind_inv hs₂ h₃
      obtain ⟨z, s₄, rfl, hs₄, hz, h₅⟩ := expect_inv (by decide) hs₃ h₄
      have hstm := Stm.assign hx hes hq he hz
      cases es <;> cases h₅ <;>
        exact ⟨us ++ q :: vs ++ [z], by simp, hs₄, .of_closed hstm rfl⟩
    · cases es <;> cases h₃

theorem reads_printStatement {w : Token} {k : PrintKind} (hw : Print w.kind k) :
    Reads (printStatement expr k w.location) fun us s => IsStatement (w :: us) s := by
  intro s st s' hs h
  obtain ⟨us, e, s₁, rfl, hs₁, he, h₁⟩ := hexpr.bind_inv hs h
  obtain ⟨z, s₂, rfl, hs₂, hz, h₂⟩ := expect_inv (by decide) hs₁ h₁
  cases h₂
  exact ⟨us ++ [z], by simp, hs₂, .of_closed (.print hw he hz) rfl⟩

theorem reads_returnStatement {w : Token} (hw : w.kind = .kwReturn) :
    Reads (returnStatement expr w.location) fun us s => IsStatement (w :: us) s := by
  intro s st s' hs h
  rcases accept_inv (by decide) hs h with ⟨z, s₁, rfl, hs₁, hz, h₁⟩ | ⟨-, h₁⟩
  · cases h₁
    exact ⟨[z], rfl, hs₁, .of_closed (.ret hw hz) rfl⟩
  · obtain ⟨us, e, s₁, rfl, hs₁, he, h₂⟩ := hexpr.bind_inv hs h₁
    obtain ⟨z, s₂, rfl, hs₂, hz, h₃⟩ := expect_inv (by decide) hs₁ h₂
    cases h₃
    exact ⟨us ++ [z], by simp, hs₂, .of_closed (.retValue hw he hz) rfl⟩

end Productions

section Nested

variable {stmt : Parser Stmt} (hstmt : Reads stmt IsStatement)

include hstmt

theorem reads_statementsUntil (stop : Token.Kind) (n : Nat) (declarable : Bool) :
    Reads (statementsUntil stmt stop n declarable) fun us ss _ => Many Stm us ss := by
  induction n generalizing declarable with
  | zero =>
    intro s ss s' hs h
    cases h
  | succ n ih =>
    intro s ss s' hs h
    rw [statementsUntil] at h
    obtain ⟨x, hx, h₁⟩ := peek_inv h
    split at hx
    · subst hx
      cases h₁
      exact ⟨[], rfl, hs, .nil⟩
    · split at hx
      · subst hx
        obtain ⟨us, st, s₁, rfl, hs₁, hst, h₂⟩ := hstmt.bind_inv hs h₁
        obtain ⟨vs, ss, s₂, rfl, hs₂, hss, h₃⟩ := (ih false).bind_inv hs₁ h₂
        cases h₃
        exact ⟨us ++ vs, by simp, hs₂, .cons hst.1 hss⟩
      · subst hx
        cases h₁

theorem reads_switchCases (n : Nat) :
    Reads (switchCases stmt n) fun us cs _ => Many (Case Stm) us cs := by
  induction n with
  | zero =>
    intro s cs s' hs h
    cases h
  | succ n ih =>
    intro s cs s' hs h
    rw [switchCases] at h
    obtain ⟨x, hx, h₁⟩ := peek_inv h
    split at hx
    · subst hx
      cases h₁
      exact ⟨[], rfl, hs, .nil⟩
    · split at hx
      · next hk =>
        subst hx
        obtain ⟨c, s₁, rfl, hs₁, hc⟩ := hs.exists_cons (by decide) hk
        obtain ⟨us, v, s₂, rfl, hs₂, hv, h₂⟩ := reads_signedInt.bind_inv hs₁ h₁
        obtain ⟨d, s₃, rfl, hs₃, hd, h₃⟩ := expect_inv (by decide) hs₂ h₂
        obtain ⟨vs, st, s₄, rfl, hs₄, hst, h₄⟩ := hstmt.bind_inv hs₃ h₃
        obtain ⟨ws, cs, s₅, rfl, hs₅, hcs, h₅⟩ := ih.bind_inv hs₄ h₄
        cases h₅
        exact ⟨c :: us ++ d :: vs ++ ws, by simp, hs₅, .cons (.mk hc hv hd hst.1) hcs⟩
      · subst hx
        cases h₁

theorem reads_blockStatement (n : Nat) {l : Token} (hl : l.kind = .lbrace) :
    Reads (blockStatement stmt n l.location) fun us s => IsStatement (l :: us) s := by
  intro s st s' hs h
  obtain ⟨us, ss, s₁, rfl, hs₁, hss, h₁⟩ :=
    (reads_statementsUntil hstmt .rbrace n false).bind_inv hs h
  obtain ⟨r, s₂, rfl, hs₂, hr, h₂⟩ := expect_inv (by decide) hs₁ h₁
  cases h₂
  exact ⟨us ++ [r], by simp, hs₂, .of_closed (.block hl hss hr) rfl⟩

variable {expr : Parser Expr} (hexpr : Reads expr fun us e _ => Exp us e)

include hexpr

/-- The `ELSE` is taken whenever there is one, so without it none follows. -/
theorem reads_ifStatement {i : Token} (hi : i.kind = .kwIf) :
    Reads (ifStatement expr stmt i.location) fun us s => IsStatement (i :: us) s := by
  intro s st s' hs h
  obtain ⟨us, c, s₁, rfl, hs₁, hc, h₁⟩ := (reads_parenthesized hexpr).bind_inv hs h
  obtain ⟨vs, st₁, s₂, rfl, hs₂, ⟨hst₁, htakes⟩, h₂⟩ := hstmt.bind_inv hs₁ h₁
  rcases accept_inv (by decide) hs₂ h₂ with ⟨j, s₃, rfl, hs₃, hj, h₃⟩ | ⟨hkind, h₃⟩
  · obtain ⟨ws, st₂, s₄, rfl, hs₄, ⟨hst₂, htakes₂⟩, h₄⟩ := hstmt.bind_inv hs₃ h₃
    cases h₄
    have hclosed : st₁.takesElse = false := by
      rw [← Bool.not_eq_true]
      exact fun h => htakes h hj
    exact ⟨us ++ vs ++ j :: ws, by simp, hs₄, .ifElse hi hc hst₁ hclosed hj hst₂, htakes₂⟩
  · cases h₃
    exact ⟨us ++ vs, by simp, hs₂, .ifThen hi hc hst₁, fun _ => hkind⟩

theorem reads_whileStatement {w : Token} (hw : w.kind = .kwWhile) :
    Reads (whileStatement expr stmt w.location) fun us s => IsStatement (w :: us) s := by
  intro s st s' hs h
  obtain ⟨us, c, s₁, rfl, hs₁, hc, h₁⟩ := (reads_parenthesized hexpr).bind_inv hs h
  obtain ⟨vs, st₁, s₂, rfl, hs₂, ⟨hst₁, htakes⟩, h₂⟩ := hstmt.bind_inv hs₁ h₁
  cases h₂
  exact ⟨us ++ vs, by simp, hs₂, .whileDo hw hc hst₁, htakes⟩

theorem reads_switchStatement (n : Nat) {w : Token} (hw : w.kind = .kwSwitch) :
    Reads (switchStatement expr stmt n w.location) fun us s => IsStatement (w :: us) s := by
  intro s st s' hs h
  obtain ⟨us, e, s₁, rfl, hs₁, he, h₁⟩ := (reads_parenthesized hexpr).bind_inv hs h
  obtain ⟨l, s₂, rfl, hs₂, hl, h₂⟩ := expect_inv (by decide) hs₁ h₁
  obtain ⟨vs, cs, s₃, rfl, hs₃, hcs, h₃⟩ := (reads_switchCases hstmt n).bind_inv hs₂ h₂
  obtain ⟨d, s₄, rfl, hs₄, hd, h₄⟩ := expect_inv (by decide) hs₃ h₃
  obtain ⟨k, s₅, rfl, hs₅, hk, h₅⟩ := expect_inv (by decide) hs₄ h₄
  obtain ⟨ws, st₁, s₆, rfl, hs₆, hst₁, h₆⟩ := hstmt.bind_inv hs₅ h₅
  obtain ⟨r, s₇, rfl, hs₇, hr, h₇⟩ := expect_inv (by decide) hs₆ h₆
  cases h₇
  exact ⟨us ++ l :: vs ++ d :: k :: ws ++ [r], by simp, hs₇,
    .of_closed (.switch hw he hl hcs hd hk hst₁.1 hr) rfl⟩

end Nested

theorem reads_statementWithin (n : Nat) : Reads (statementWithin n) IsStatement := by
  induction n with
  | zero =>
    intro s st s' hs h
    cases h
  | succ n ih =>
    intro s st s' hs h
    have hexp := reads_expressionWithin n
    rw [statementWithin] at h
    -- One case for each kind of token that a statement can start with.
    obtain ⟨x, hx, h₁⟩ := peek_inv h
    split at hx
    all_goals subst hx
    · next hk =>
      obtain ⟨t, s₁, rfl, hs₁, ht⟩ := hs.exists_cons (by decide) hk
      exact (reads_namedStatement hexp n ht).after hs₁ h₁
    · next hk =>
      obtain ⟨t, s₁, rfl, hs₁, ht⟩ := hs.exists_cons (by decide) hk
      exact (reads_ifStatement ih hexp ht).after hs₁ h₁
    · next hk =>
      obtain ⟨t, s₁, rfl, hs₁, ht⟩ := hs.exists_cons (by decide) hk
      exact (reads_whileStatement ih hexp ht).after hs₁ h₁
    · next hk =>
      obtain ⟨t, s₁, rfl, hs₁, ht⟩ := hs.exists_cons (by decide) hk
      exact (reads_switchStatement ih hexp n ht).after hs₁ h₁
    · next hk =>
      obtain ⟨t, s₁, rfl, hs₁, ht⟩ := hs.exists_cons (by decide) hk
      exact (reads_blockStatement ih n ht).after hs₁ h₁
    · next hk =>
      obtain ⟨t, s₁, rfl, hs₁, ht⟩ := hs.exists_cons (by decide) hk
      exact (reads_printStatement hexp (ht ▸ .number)).after hs₁ h₁
    · next hk =>
      obtain ⟨t, s₁, rfl, hs₁, ht⟩ := hs.exists_cons (by decide) hk
      exact (reads_printStatement hexp (ht ▸ .line)).after hs₁ h₁
    · next hk =>
      obtain ⟨t, s₁, rfl, hs₁, ht⟩ := hs.exists_cons (by decide) hk
      exact (reads_printStatement hexp (ht ▸ .character)).after hs₁ h₁
    · next hk =>
      obtain ⟨t, s₁, rfl, hs₁, ht⟩ := hs.exists_cons (by decide) hk
      obtain ⟨z, s₂, rfl, hs₂, hz, h₂⟩ := expect_inv (by decide) hs₁ h₁
      cases h₂
      exact ⟨[t, z], rfl, hs₂, .of_closed (.newline ht hz) rfl⟩
    · next hk =>
      obtain ⟨t, s₁, rfl, hs₁, ht⟩ := hs.exists_cons (by decide) hk
      exact (reads_returnStatement hexp ht).after hs₁ h₁
    · cases h₁

/-! ## Declarations and programs -/

theorem reads_varType (n : Nat) : Reads (varType n) fun us ty _ => TypeName us ty := by
  intro s ty s' hs h
  obtain ⟨t, s₁, rfl, hs₁, ht, h₁⟩ := expect_inv (by decide) hs h
  obtain ⟨us, k, s₂, rfl, hs₂, hk, h₂⟩ := (reads_emptyBrackets n).bind_inv hs₁ h₁
  cases h₂
  exact ⟨t :: us, rfl, hs₂, .mk ht hk⟩

theorem reads_identifier : Reads identifier fun us x _ =>
    ∃ t : Token, us = [t] ∧ t.kind = .ident ∧ x = t.lexeme := by
  intro s x s' hs h
  obtain ⟨t, s₁, rfl, hs₁, ht, h₁⟩ := expect_inv (by decide) hs h
  cases h₁
  exact ⟨[t], rfl, hs₁, t, rfl, ht, rfl⟩

theorem reads_typedName (n : Nat) : Reads (typedName n) fun us d _ => TypedName us d := by
  intro s d s' hs h
  rw [typedName, bind_peek] at h
  obtain ⟨us, ty, s₁, rfl, hs₁, hty, h₁⟩ := (reads_varType n).bind_inv hs h
  obtain ⟨_, x, s₂, rfl, hs₂, ⟨x, rfl, hx, rfl⟩, h₂⟩ := reads_identifier.bind_inv hs₁ h₁
  cases h₂
  cases hty with
  | mk ht hus => exact ⟨_, by simp, hs₂, .mk (.mk ht hus) hx⟩

theorem reads_declarations (n : Nat) : Reads (declarations n) fun us ds _ => Many VarDecl us ds := by
  induction n with
  | zero =>
    intro s ds s' hs h
    cases h
  | succ n ih =>
    intro s ds s' hs h
    rcases sees_inv h with ⟨-, h₁⟩ | ⟨-, h₁⟩
    · obtain ⟨us, d, s₁, rfl, hs₁, hd, h₂⟩ := (reads_typedName n).bind_inv hs h₁
      obtain ⟨z, s₂, rfl, hs₂, hz, h₃⟩ := expect_inv (by decide) hs₁ h₂
      obtain ⟨vs, ds, s₃, rfl, hs₃, hds, h₄⟩ := ih.bind_inv hs₂ h₃
      cases h₄
      exact ⟨us ++ [z] ++ vs, by simp, hs₃, .cons (.mk hd hz) hds⟩
    · cases h₁
      exact ⟨[], rfl, hs, .nil⟩

theorem reads_typedNames (n : Nat) : Reads (typedNames n) fun us ds _ => Separated TypedName us ds := by
  induction n with
  | zero =>
    intro s ds s' hs h
    cases h
  | succ n ih =>
    intro s ds s' hs h
    obtain ⟨us, d, s₁, rfl, hs₁, hd, h₁⟩ := (reads_typedName n).bind_inv hs h
    rcases accept_inv (by decide) hs₁ h₁ with ⟨c, s₂, rfl, hs₂, hc, h₂⟩ | ⟨-, h₂⟩
    · obtain ⟨vs, ds, s₃, rfl, hs₃, hds, h₃⟩ := ih.bind_inv hs₂ h₂
      cases h₃
      exact ⟨us ++ c :: vs, by simp, hs₃, .more hd hc hds⟩
    · cases h₂
      exact ⟨us, rfl, hs₁, .one hd⟩

theorem reads_formals (n : Nat) : Reads (formals n) fun us ds _ => Listed TypedName us ds := by
  intro s ds s' hs h
  rcases sees_inv h with ⟨-, h₁⟩ | ⟨-, h₁⟩
  · obtain ⟨us, rfl, hs', hds⟩ := reads_typedNames n hs h₁
    exact ⟨us, rfl, hs', .some hds⟩
  · cases h₁
    exact ⟨[], rfl, hs, .none⟩

/-- What follows the opening token of a body. -/
theorem reads_body {opening closing : Token.Kind} (hclosing : closing ≠ .eof) (n : Nat) {l : Token}
    (hl : l.kind = opening) :
    Reads (body closing n) fun us b _ => Body opening closing (l :: us) b := by
  intro s b s' hs h
  obtain ⟨us, ds, s₁, rfl, hs₁, hds, h₁⟩ := (reads_declarations n).bind_inv hs h
  obtain ⟨vs, ss, s₂, rfl, hs₂, hss, h₂⟩ :=
    (reads_statementsUntil (reads_statementWithin n) closing n true).bind_inv hs₁ h₁
  obtain ⟨r, s₃, rfl, hs₃, hr, h₃⟩ := expect_inv hclosing hs₂ h₂
  cases h₃
  exact ⟨us ++ vs ++ [r], by simp, hs₃, .mk hl hds hss hr⟩

theorem reads_methodRest (n : Nat) (type : Option VarType) (l : Location) :
    Reads (methodRest n type l) fun us m _ => MethodRest type l us m := by
  intro s m s' hs h
  obtain ⟨_, x, s₁, rfl, hs₁, ⟨x, rfl, hx, rfl⟩, h₁⟩ := reads_identifier.bind_inv hs h
  obtain ⟨p, s₂, rfl, hs₂, hp, h₂⟩ := expect_inv (by decide) hs₁ h₁
  obtain ⟨us, ps, s₃, rfl, hs₃, hps, h₃⟩ := (reads_formals n).bind_inv hs₂ h₂
  obtain ⟨q, s₄, rfl, hs₄, hq, h₄⟩ := expect_inv (by decide) hs₃ h₃
  obtain ⟨b, s₅, rfl, hs₅, hb, h₅⟩ := expect_inv (by decide) hs₄ h₄
  obtain ⟨vs, ⟨ds, ss⟩, s₆, rfl, hs₆, hbody, h₆⟩ :=
    (reads_body (by decide) n hb).bind_inv hs₅ h₅
  cases h₆
  exact ⟨x :: (p :: us ++ [q]) ++ b :: vs, by simp, hs₆, .mk hx (.mk hp hps hq) hbody⟩

theorem reads_methods (n : Nat) : Reads (methods n) fun us ms _ => Many MethodDef us ms := by
  induction n with
  | zero =>
    intro s ms s' hs h
    cases h
  | succ n ih =>
    intro s ms s' hs h
    rw [methods] at h
    obtain ⟨x, hx, h₁⟩ := peek_inv h
    split at hx
    all_goals subst hx
    · next hk =>
      obtain ⟨f, s₁, rfl, hs₁, hf⟩ := hs.exists_cons (by decide) hk
      obtain ⟨us, ty, s₂, rfl, hs₂, hty, h₂⟩ := (reads_varType n).bind_inv hs₁ h₁
      obtain ⟨vs, m, s₃, rfl, hs₃, hm, h₃⟩ := (reads_methodRest n _ _).bind_inv hs₂ h₂
      obtain ⟨ws, ms, s₄, rfl, hs₄, hms, h₄⟩ := ih.bind_inv hs₃ h₃
      cases h₄
      exact ⟨f :: us ++ vs ++ ws, by simp, hs₄, .cons (.function hf hty hm) hms⟩
    · next hk =>
      obtain ⟨f, s₁, rfl, hs₁, hf⟩ := hs.exists_cons (by decide) hk
      obtain ⟨us, m, s₂, rfl, hs₂, hm, h₂⟩ := (reads_methodRest n _ _).bind_inv hs₁ h₁
      obtain ⟨vs, ms, s₃, rfl, hs₃, hms, h₃⟩ := ih.bind_inv hs₂ h₂
      cases h₃
      exact ⟨f :: us ++ vs, by simp, hs₃, .cons (.procedure hf hm) hms⟩
    · cases h₁
      exact ⟨[], rfl, hs, .nil⟩

/-- A program that was read leaves the stream at its end. -/
theorem reads_programWithin (n : Nat) :
    Reads (programWithin n) fun us p rest => Grammar.Program us p ∧ rest.head.kind = .eof := by
  intro s p s' hs h
  obtain ⟨b, s₁, rfl, hs₁, hb, h₁⟩ := expect_inv (by decide) hs h
  obtain ⟨us, ⟨ds, ss⟩, s₂, rfl, hs₂, hbody, h₂⟩ :=
    (reads_body (by decide) n hb).bind_inv hs₁ h₁
  obtain ⟨vs, ms, s₃, rfl, hs₃, hms, h₃⟩ := (reads_methods n).bind_inv hs₂ h₂
  rcases sees_inv h₃ with ⟨hk, h₄⟩ | ⟨-, h₄⟩
  · cases h₄
    exact ⟨b :: us ++ vs, by simp, hs₃, .mk hbody hms, hk⟩
  · cases h₄

end Lpl.Parser
