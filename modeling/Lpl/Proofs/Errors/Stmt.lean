import Lpl.Proofs.Errors.Expr

/-!
# Errors in statements

A statement that breaks off can be completed, and with each of the tokens that its error lists. An `ELSE`
is asked for nowhere, so nothing depends on whether one may follow. In a list of statements the token
that ends the list is always an alternative, and at its start a declaration may be one.
-/

namespace Lpl

namespace Grammar

open Token (sample kind_sample)

theorem parenthesized_sample :
    Parenthesized Exp [sample .lparen, sample .ident, sample .rparen] (.var "0" .start) :=
  .mk rfl exp_sample rfl

theorem stm_sample : Stm [sample .kwNewline, sample .semicolon] (.newline .start) := .newline rfl rfl

/-- Each of the kinds that a statement is said to start with does start one. -/
theorem exists_stm {k : Token.Kind} (hk : k ∈ Parser.statementStart) :
    ∃ us s, Stm (sample k :: us) s := by
  have hsemicolon := kind_sample .semicolon
  simp only [Parser.statementStart, List.mem_cons, List.not_mem_nil, or_false] at hk
  rcases hk with rfl | rfl | rfl | rfl | rfl | rfl | rfl | rfl | rfl | rfl
  · exact ⟨_, _, .assign rfl .nil (kind_sample .assign) exp_sample hsemicolon⟩
  · exact ⟨_, _, .ifThen rfl parenthesized_sample stm_sample⟩
  · exact ⟨_, _, .whileDo rfl parenthesized_sample stm_sample⟩
  · exact ⟨_, _, .switch rfl parenthesized_sample (kind_sample .lbrace) .nil (kind_sample .kwDefault)
      (kind_sample .colon) stm_sample (kind_sample .rbrace)⟩
  · exact ⟨_, _, .block rfl .nil (kind_sample .rbrace)⟩
  · exact ⟨_, _, .print .number exp_sample hsemicolon⟩
  · exact ⟨_, _, .print .line exp_sample hsemicolon⟩
  · exact ⟨_, _, .print .character exp_sample hsemicolon⟩
  · exact ⟨_, _, stm_sample⟩
  · exact ⟨_, _, .ret rfl hsemicolon⟩

end Grammar

namespace Parser

open TokenStream Grammar TokenLanguage
open Token (sample kind_sample)

variable {n m b i j : Nat} {s : TokenStream} {L : TokenLanguage} {stop : Token.Kind}

theorem ne_eof_of_mem_statementStart {k : Token.Kind} (hk : k ∈ statementStart) : k ≠ .eof := by
  rintro rfl
  exact absurd hk (by decide)

theorem leads_statementStart (hL : Continues Stm L) : Leads L [] statementStart := by
  refine leads_nil (by decide) fun k hk => ⟨ne_eof_of_mem_statementStart hk, ?_⟩
  obtain ⟨us, st, hst⟩ := exists_stm hk
  exact (hL hst).imp' (us ++ ·) fun _ hvs => hvs

/-! ## Statements without statements inside -/

theorem reports_expression (hs : Clean s) (hn : s.ahead.length < n) (hm : b ≤ m)
    (hL : Continues Exp L) : Reports b L (expressionWithin n) (expressionWithin m) s :=
  (reportsExp_of_simple (reportsSimple n) hs hn hL).mono hm

theorem reports_parenthesized (hs : Clean s) (hn : s.ahead.length < n) (hm : b ≤ m)
    (hL : Continues (Parenthesized Exp) L) :
    Reports b L (parenthesized (expressionWithin n)) (parenthesized (expressionWithin m)) s := by
  obtain ⟨vs, hvs⟩ := hL parenthesized_sample
  refine .expect (by decide) hs ⟨_, hvs⟩ ?_
  rintro l s₁ rfl hs₁ hl
  refine .closed (reads_expressionWithin n) (by decide) hs₁ (fun us e he => ?_)
    (reports_expression hs₁ (by simp at hn; omega) (by omega)) fun _ _ _ _ _ _ _ _ => .pure _
  simpa [after] using hL (.mk hl he (kind_sample .rparen))

theorem reports_namedStatement {x : Token} (hx : x.kind = .ident) (hs : Clean s)
    (hn : s.ahead.length < n) (hm : b ≤ m) (hL : Continues (fun us st => Stm (x :: us) st) L) :
    Reports b L (namedStatement (expressionWithin n) n x) (namedStatement (expressionWithin m) m x)
      s := by
  have hexp := reportsExp_of_simple (reportsSimple n)
  have hsemicolon := kind_sample .semicolon
  refine .accept (by decide) hs (fun l s₁ heq hs₁ hl => ?_) fun _ => ?_
  · subst heq
    refine .closed (reads_arguments (reads_expressionWithin n) n) (by decide) hs₁ (fun us es hes => ?_)
      (reports_arguments hexp hs₁ (by simp at hn; omega) (by omega) (by omega) (by omega)) ?_
    · obtain ⟨vs, hvs⟩ := hL (.call hx (.mk hl hes (kind_sample .rparen)) hsemicolon)
      exact ⟨_, by simpa [after] using hvs⟩
    rintro us es r s₂ rfl hs₂ hes hr
    refine .expect (by decide) hs₂ ?_ fun _ _ _ _ _ => .pure _
    simpa [after] using hL (.call hx (.mk hl hes hr) hsemicolon)
  · have hassign : Follows .assign (Many (Bracketed Exp)) L := by
      intro us es hes
      obtain ⟨vs, hvs⟩ := hL (.assign hx hes (kind_sample .assign) exp_sample hsemicolon)
      exact ⟨_, by simpa using hvs⟩
    refine .bind (reads_indexers (reads_expressionWithin n) n) hs
      (reports_indexers hexp hs hn (Nat.le_refl n) hm hm hassign.continues) ?_
    rintro us es s₁ rfl hs₁ hes
    refine .accept (by decide) hs₁ (fun q s₂ heq hs₂ hq => ?_) fun _ => ?_
    · subst heq
      refine .closed (reads_expressionWithin n) (by decide) hs₂ (fun vs e he => ?_)
        (reports_expression hs₂ (by simp at hn; omega) (by omega)) ?_
      · simpa [after] using hL (.assign hx hes hq he hsemicolon)
      · intros
        cases es <;> exact .pure _
    · have hbracket : ∃ vs, after us L (sample .lbracket :: vs) := by
        obtain ⟨vs, hvs⟩ := hassign (hes.append (.cons bracketed_sample .nil))
        exact ⟨_, by simpa [after] using hvs⟩
      have hequals : ∃ vs, after us L (sample .assign :: vs) := hassign hes
      cases hes with
      | nil =>
        obtain ⟨vs, hvs⟩ :=
          hL (.call hx (.mk (kind_sample .lparen) .none (kind_sample .rparen)) hsemicolon)
        have hparen : ∃ vs, after [] L (sample .lparen :: vs) := ⟨_, hvs⟩
        exact .unexpected (leads_nil (by decide) (by simp [hparen, hbracket, hequals]))
      | cons _ _ => exact .unexpected (leads_nil (by decide) (by simp [hbracket, hequals]))

theorem reports_printStatement {w : Token} {k : PrintKind} (hw : Print w.kind k) (hs : Clean s)
    (hn : s.ahead.length < n) (hm : b ≤ m) (hL : Continues (fun us st => Stm (w :: us) st) L) :
    Reports b L (printStatement (expressionWithin n) k w.location)
      (printStatement (expressionWithin m) k w.location) s := by
  refine .closed (reads_expressionWithin n) (by decide) hs (fun us e he => ?_)
    (reports_expression hs hn hm) fun _ _ _ _ _ _ _ _ => .pure _
  simpa using hL (.print hw he (kind_sample .semicolon))

theorem reports_returnStatement {w : Token} (hw : w.kind = .kwReturn) (hs : Clean s)
    (hn : s.ahead.length < n) (hm : b ≤ m) (hL : Continues (fun us st => Stm (w :: us) st) L) :
    Reports b L (returnStatement (expressionWithin n) w.location)
      (returnStatement (expressionWithin m) w.location) s := by
  refine .accept (by decide) hs (fun _ _ _ _ _ => .pure _) fun _ => ?_
  refine .closed (reads_expressionWithin n) (by decide) hs (fun us e he => ?_)
    (reports_expression hs hn hm) fun _ _ _ _ _ _ _ _ => .pure _
  simpa using hL (.retValue hw he (kind_sample .semicolon))

/-! ## Statements with statements inside -/

/-- What the parser of statements with a bound of `n` reports. -/
def ReportsStm (n : Nat) : Prop :=
  ∀ ⦃m s L⦄, Clean s → s.ahead.length < n → Continues Stm L →
    Reports m L (statementWithin n) (statementWithin m) s

theorem leads_alternatives {declarable : Bool} (hstop : stop ≠ .eof) (hL : Follows stop (Many Stm) L)
    (hdecl : declarable → ∃ vs, L (sample .kwInt :: vs)) :
    Leads L [] (statementsUntil.alternatives stop declarable) := by
  refine leads_nil (by simp [statementsUntil.alternatives]) fun k hk => ?_
  simp only [statementsUntil.alternatives, List.mem_append, List.mem_cons] at hk
  rcases hk with hk | rfl | hk
  · obtain ⟨us, st, hst⟩ := exists_stm hk
    obtain ⟨vs, hvs⟩ := hL (.cons hst .nil)
    exact ⟨ne_eof_of_mem_statementStart hk, _, hvs⟩
  · exact ⟨hstop, hL .nil⟩
  · cases declarable with
    | false => cases hk
    | true =>
      obtain rfl := List.mem_singleton.1 hk
      exact ⟨by decide, hdecl rfl⟩

theorem leads_case (hL : Follows .kwDefault (Many (Case Stm)) L) :
    Leads L [] [.kwCase, .kwDefault] := by
  obtain ⟨vs, hvs⟩ := hL (.cons (.mk (kind_sample .kwCase) (.mk literal_sample (by decide))
    (kind_sample .colon) stm_sample) .nil)
  have hcase : ∃ vs, L (sample .kwCase :: vs) := ⟨_, hvs⟩
  have hdefault : ∃ vs, L (sample .kwDefault :: vs) := hL .nil
  exact leads_nil (by decide) (by simp [hcase, hdefault])

section Nested

variable (hstm : ReportsStm n)

include hstm

theorem reports_statementsUntil {declarable : Bool} (hs : Clean s) (hi : s.ahead.length < i)
    (hn : i ≤ n) (hj : b ≤ j) (hm : b ≤ m) (hstop : stop ≠ .eof) (hL : Follows stop (Many Stm) L)
    (hdecl : declarable → ∃ vs, L (sample .kwInt :: vs)) :
    Reports b L (statementsUntil (statementWithin n) stop i declarable)
      (statementsUntil (statementWithin m) stop j declarable) s := by
  induction i generalizing b j s L declarable with
  | zero =>
    exact absurd hi (Nat.not_lt_zero _)
  | succ i ih =>
    refine .of_succ (f := fun j => statementsUntil (statementWithin m) stop j declarable) hj ?_
    intro j hj
    rw [statementsUntil, statementsUntil]
    refine .peek ?_
    by_cases hend : s.head.kind = stop
    · rw [if_pos hend, if_pos hend]
      exact .pure _
    by_cases hstart : s.head.kind ∈ statementStart
    · rw [if_neg hend, if_neg hend, if_pos hstart, if_pos hstart]
      refine .bind (reads_statementWithin n) hs ((hstm hs (by omega) fun us st hst => ?_).mono hm) ?_
      · exact (hL (.cons hst .nil)).imp' (sample stop :: ·) fun _ hvs => by simpa using hvs
      rintro us st s₁ rfl hs₁ ⟨hst, -⟩
      obtain ⟨t, vs, rfl, -⟩ := starts_stm hst
      refine .map (ih hs₁ (by simp at hi; omega) (by omega) (by simp; omega) (by omega) ?_ (by simp))
      intro ws ss hss
      simpa [after] using hL (.cons hst hss)
    · rw [if_neg hend, if_neg hend, if_neg hstart, if_neg hstart]
      exact .unexpected (leads_alternatives hstop hL hdecl)

theorem reports_switchCases (hs : Clean s) (hi : s.ahead.length < i) (hn : i ≤ n) (hj : b ≤ j)
    (hm : b ≤ m) (hL : Follows .kwDefault (Many (Case Stm)) L) :
    Reports b L (switchCases (statementWithin n) i) (switchCases (statementWithin m) j) s := by
  induction i generalizing b j s L with
  | zero =>
    exact absurd hi (Nat.not_lt_zero _)
  | succ i ih =>
    refine .of_succ hj ?_
    intro j hj
    rw [switchCases, switchCases]
    refine .peek ?_
    by_cases hend : s.head.kind = .kwDefault
    · rw [if_pos hend, if_pos hend]
      exact .pure _
    by_cases hstart : s.head.kind = .kwCase
    · rw [if_neg hend, if_neg hend, if_pos hstart, if_pos hstart]
      obtain ⟨c, s₁, rfl, hs₁, hc⟩ := hs.exists_cons (by decide) hstart
      refine .next (.closed reads_signedInt (by decide) hs₁ (fun us v hv => ?_)
        (reports_signedInt hs₁) ?_)
      · obtain ⟨vs, hvs⟩ := hL (.cons (.mk hc hv (kind_sample .colon) stm_sample) .nil)
        exact ⟨_, by simpa [after] using hvs⟩
      rintro us v d s₂ rfl hs₂ hv hd
      refine .bind (reads_statementWithin n) hs₂
        ((hstm hs₂ (by simp at hi; omega) fun vs st hst => ?_).mono (by omega)) ?_
      · obtain ⟨ws, hws⟩ := hL (.cons (.mk hc hv hd hst) .nil)
        exact ⟨_, by simpa [after] using hws⟩
      rintro vs st s₃ rfl hs₃ ⟨hst, -⟩
      refine .map (ih hs₃ (by simp at hi; omega) (by omega) (by omega) (by omega) fun ws cs hcs => ?_)
      simpa [after] using hL (.cons (.mk hc hv hd hst) hcs)
    · rw [if_neg hend, if_neg hend, if_neg hstart, if_neg hstart]
      exact .unexpected (leads_case hL)

theorem reports_blockStatement {l : Token} (hl : l.kind = .lbrace) (hs : Clean s)
    (hn : s.ahead.length < n) (hm : b ≤ m) (hL : Continues (fun us st => Stm (l :: us) st) L) :
    Reports b L (blockStatement (statementWithin n) n l.location)
      (blockStatement (statementWithin m) m l.location) s := by
  have hclose : Follows .rbrace (Many Stm) L := fun us ss hss => by
    simpa using hL (.block hl hss (kind_sample .rbrace))
  refine .closed (reads_statementsUntil (reads_statementWithin n) .rbrace n false) (by decide) hs hclose
    (fun _ => ?_) fun _ _ _ _ _ _ _ _ => .pure _
  exact reports_statementsUntil hstm hs hn (Nat.le_refl n) hm hm (by decide) hclose (by simp)

theorem reports_whileStatement {w : Token} (hw : w.kind = .kwWhile) (hs : Clean s)
    (hn : s.ahead.length < n) (hm : b ≤ m) (hL : Continues (fun us st => Stm (w :: us) st) L) :
    Reports b L (whileStatement (expressionWithin n) (statementWithin n) w.location)
      (whileStatement (expressionWithin m) (statementWithin m) w.location) s := by
  refine .bind (reads_parenthesized (reads_expressionWithin n)) hs
    (reports_parenthesized hs hn hm fun us c hc => ?_) ?_
  · obtain ⟨vs, hvs⟩ := hL (.whileDo hw hc stm_sample)
    exact ⟨_, by simpa using hvs⟩
  rintro us c s₁ rfl hs₁ hc
  refine .map ((hstm hs₁ (by simp at hn; omega) fun vs st hst => ?_).mono (by omega))
  simpa [after] using hL (.whileDo hw hc hst)

theorem reports_ifStatement {t : Token} (ht : t.kind = .kwIf) (hs : Clean s)
    (hn : s.ahead.length < n) (hm : b ≤ m) (hL : Continues (fun us st => Stm (t :: us) st) L) :
    Reports b L (ifStatement (expressionWithin n) (statementWithin n) t.location)
      (ifStatement (expressionWithin m) (statementWithin m) t.location) s := by
  refine .bind (reads_parenthesized (reads_expressionWithin n)) hs
    (reports_parenthesized hs hn hm fun us c hc => ?_) ?_
  · obtain ⟨vs, hvs⟩ := hL (.ifThen ht hc stm_sample)
    exact ⟨_, by simpa using hvs⟩
  rintro us c s₁ rfl hs₁ hc
  refine .bind (reads_statementWithin n) hs₁
    ((hstm hs₁ (by simp at hn; omega) fun vs st hst => ?_).mono (by omega)) ?_
  · simpa [after] using hL (.ifThen ht hc hst)
  rintro vs st s₂ rfl hs₂ ⟨hst, htakes⟩
  refine .accept (by decide) hs₂ (fun k s₃ heq hs₃ hk => ?_) fun _ => .pure _
  subst heq
  -- A first branch that could take the `ELSE` would have done so.
  have hclosed : st.takesElse = false := by
    rw [← Bool.not_eq_true]
    exact fun h => htakes h hk
  refine .map ((hstm hs₃ (by simp at hn; omega) fun ws st' hst' => ?_).mono (by omega))
  simpa [after] using hL (.ifElse ht hc hst hclosed hk hst')

theorem reports_switchStatement {w : Token} (hw : w.kind = .kwSwitch) (hs : Clean s)
    (hn : s.ahead.length < n) (hm : b ≤ m) (hL : Continues (fun us st => Stm (w :: us) st) L) :
    Reports b L (switchStatement (expressionWithin n) (statementWithin n) n w.location)
      (switchStatement (expressionWithin m) (statementWithin m) m w.location) s := by
  have hbrace := kind_sample .lbrace
  have hdefault := kind_sample .kwDefault
  have hcolon := kind_sample .colon
  have hend := kind_sample .rbrace
  refine .closed (reads_parenthesized (reads_expressionWithin n)) (by decide) hs (fun us e he => ?_)
    (reports_parenthesized hs hn hm) ?_
  · obtain ⟨vs, hvs⟩ := hL (.switch hw he hbrace .nil hdefault hcolon stm_sample hend)
    exact ⟨_, by simpa using hvs⟩
  rintro us e l s₁ rfl hs₁ he hl
  have hcases : Follows .kwDefault (Many (Case Stm)) (after [l] (after us L)) := by
    intro vs cs hcs
    obtain ⟨ws, hws⟩ := hL (.switch hw he hl hcs hdefault hcolon stm_sample hend)
    exact ⟨_, by simpa [after] using hws⟩
  refine .closed (reads_switchCases (reads_statementWithin n) n) (by decide) hs₁ hcases (fun _ => ?_) ?_
  · exact reports_switchCases hstm hs₁ (by simp at hn; omega) (by omega) (by omega) (by omega) hcases
  rintro vs cs d s₂ rfl hs₂ hcs hd
  obtain ⟨ws, hws⟩ := hL (.switch hw he hl hcs hd hcolon stm_sample hend)
  refine .expect (by decide) hs₂ ⟨_, by simpa [after] using hws⟩ ?_
  rintro k s₃ rfl hs₃ hk
  refine .bind (reads_statementWithin n) hs₃
    ((hstm hs₃ (by simp at hn; omega) fun zs st hst => ?_).mono (by omega)) ?_
  · obtain ⟨ws, hws⟩ := hL (.switch hw he hl hcs hd hk hst hend)
    exact ⟨_, by simpa [after] using hws⟩
  rintro zs st s₄ rfl hs₄ ⟨hst, -⟩
  refine .expect (by decide) hs₄ ?_ fun _ _ _ _ _ => .pure _
  simpa [after] using hL (.switch hw he hl hcs hd hk hst hend)

end Nested

theorem reportsStm (n : Nat) : ReportsStm n := by
  induction n with
  | zero =>
    intro m s L hs hn
    exact absurd hn (Nat.not_lt_zero _)
  | succ n ih =>
    intro m s L hs hn hL
    refine .of_succ (Nat.le_refl m) ?_
    intro j hj
    -- Behind its first token the statement has one token less.
    have hfirst : ∀ {k : Token.Kind}, k ≠ .eof → s.head.kind = k →
        ∃ t s₁, s = cons t s₁ ∧ Clean s₁ ∧ t.kind = k ∧ s₁.ahead.length < n := by
      intro k hk hkind
      obtain ⟨t, s₁, rfl, hs₁, ht⟩ := hs.exists_cons hk hkind
      exact ⟨t, s₁, rfl, hs₁, ht, by simpa using hn⟩
    rw [statementWithin, statementWithin]
    refine .peek ?_
    cases hk : s.head.kind with
    | ident =>
      obtain ⟨t, s₁, rfl, hs₁, ht, hn₁⟩ := hfirst (by decide) hk
      exact .next (reports_namedStatement ht hs₁ hn₁ (by omega) fun us st hst => hL hst)
    | kwIf =>
      obtain ⟨t, s₁, rfl, hs₁, ht, hn₁⟩ := hfirst (by decide) hk
      exact .next (reports_ifStatement ih ht hs₁ hn₁ (by omega) fun us st hst => hL hst)
    | kwWhile =>
      obtain ⟨t, s₁, rfl, hs₁, ht, hn₁⟩ := hfirst (by decide) hk
      exact .next (reports_whileStatement ih ht hs₁ hn₁ (by omega) fun us st hst => hL hst)
    | kwSwitch =>
      obtain ⟨t, s₁, rfl, hs₁, ht, hn₁⟩ := hfirst (by decide) hk
      exact .next (reports_switchStatement ih ht hs₁ hn₁ (by omega) fun us st hst => hL hst)
    | lbrace =>
      obtain ⟨t, s₁, rfl, hs₁, ht, hn₁⟩ := hfirst (by decide) hk
      exact .next (reports_blockStatement ih ht hs₁ hn₁ (by omega) fun us st hst => hL hst)
    | kwPrint =>
      obtain ⟨t, s₁, rfl, hs₁, ht, hn₁⟩ := hfirst (by decide) hk
      exact .next (reports_printStatement (ht ▸ .number) hs₁ hn₁ (by omega) fun us st hst => hL hst)
    | kwPrintln =>
      obtain ⟨t, s₁, rfl, hs₁, ht, hn₁⟩ := hfirst (by decide) hk
      exact .next (reports_printStatement (ht ▸ .line) hs₁ hn₁ (by omega) fun us st hst => hL hst)
    | kwPrintch =>
      obtain ⟨t, s₁, rfl, hs₁, ht, hn₁⟩ := hfirst (by decide) hk
      exact .next (reports_printStatement (ht ▸ .character) hs₁ hn₁ (by omega) fun us st hst => hL hst)
    | kwNewline =>
      obtain ⟨t, s₁, rfl, hs₁, ht, hn₁⟩ := hfirst (by decide) hk
      refine .next (.expect (by decide) hs₁ ?_ fun _ _ _ _ _ => .pure _)
      exact hL (.newline ht (kind_sample .semicolon))
    | kwReturn =>
      obtain ⟨t, s₁, rfl, hs₁, ht, hn₁⟩ := hfirst (by decide) hk
      exact .next (reports_returnStatement ht hs₁ hn₁ (by omega) fun us st hst => hL hst)
    | _ => exact .unexpected (leads_statementStart hL)

end Parser

end Lpl
