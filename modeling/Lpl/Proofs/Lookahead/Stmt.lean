import Lpl.Proofs.Errors.Stmt
import Lpl.Proofs.Lookahead.Expr

/-!
# What settles a statement

Behind a statement only an `ELSE` has been looked for. A list of statements goes on to the token that
ends it, so nothing else can stand there, and a list that breaks off had looked for all the tokens that
start a statement, for the token that ends the list, and perhaps for an `ELSE`.
-/

namespace Lpl

namespace Parser

open TokenStream ParseError
open Token (Kind)

variable {n m b i j : Nat} {s : TokenStream} {stop : Kind} {G : Kind → Prop}
  {F : Stmt → TokenStream → Kind → Prop}

/-! ## Before a token that starts nothing -/

section Idle

variable {stmt : Parser Stmt}

theorem statementWithin_of_not_mem (h : s.head.kind ∉ statementStart) :
    statementWithin (n + 1) s = unexpected statementStart s := by
  rw [statementWithin, bind_peek]
  cases hk : s.head.kind with
  | ident | kwIf | kwWhile | kwSwitch | lbrace | kwPrint | kwPrintln | kwPrintch | kwNewline
  | kwReturn =>
    rw [hk] at h
    exact absurd h (by decide)
  | _ => rfl

theorem statementsUntil_of_not_mem {declarable : Bool} (h : s.head.kind ∉ stop :: statementStart) :
    statementsUntil stmt stop (n + 1) declarable s =
      unexpected (statementsUntil.alternatives stop declarable) s := by
  rw [List.mem_cons, not_or] at h
  rw [statementsUntil, bind_peek, if_neg h.1, if_neg h.2]

theorem switchCases_of_not_mem (h : s.head.kind ∉ [Kind.kwCase, Kind.kwDefault]) :
    switchCases stmt (n + 1) s = unexpected [.kwCase, .kwDefault] s := by
  simp only [List.mem_cons, List.not_mem_nil, or_false, not_or] at h
  rw [switchCases, bind_peek, if_neg h.2, if_neg h.1]

end Idle

theorem settles_statementsUntil_of_not_mem {declarable : Bool} {stmt stmt' : Parser Stmt}
    {F : List Stmt → TokenStream → Kind → Prop} (h : s.head.kind ∉ stop :: statementStart)
    (hG : ∀ k, G k → k ∈ statementsUntil.alternatives stop declarable ++
      passedOver (statementsUntil.alternatives stop declarable)) :
    Settles b G F (statementsUntil stmt stop (i + 1) declarable)
      (statementsUntil stmt' stop (j + 1) declarable) s := by
  refine .idle h statementsUntil_of_not_mem statementsUntil_of_not_mem (.unexpected ?_ ?_)
  · simp [statementsUntil.alternatives, statementStart]
  · rintro k (hk | hk)
    · exact hG k hk
    · refine List.mem_append_left _ ?_
      rcases List.mem_cons.1 hk with rfl | hk
      · exact List.mem_append_right _ (List.mem_cons_self ..)
      · exact List.mem_append_left _ hk

/-! ## Statements without statements inside -/

theorem settles_expression (hs : s.last.kind = .eof) (hn : s.ahead.length < n) (hm : b ≤ m)
    (hG : BeforeExpression G) :
    Settles b G (fun _ _ k => k ∈ expressionTails) (expressionWithin n) (expressionWithin m) s :=
  (settlesExp n hs hn hG).mono hm

theorem settles_parenthesized (hs : s.last.kind = .eof) (hn : s.ahead.length < n) (hm : b ≤ m) :
    Settles b (fun _ => False) (fun _ _ _ => False) (parenthesized (expressionWithin n))
      (parenthesized (expressionWithin m)) s := by
  refine .expect (by decide) hs (fun _ _ => False.elim) ?_
  rintro l s₁ rfl hs₁ -
  exact .closed (settles_expression hs₁ (by simp at hn; omega) (by omega) beforeExpression_false)
    (by decide) hs₁ (fun _ _ _ => by decide) fun _ _ _ _ _ _ _ => .pure _ fun _ => id

theorem settles_namedStatement {x : Token} (hs : s.last.kind = .eof) (hn : s.ahead.length < n)
    (hm : b ≤ m) :
    Settles b (fun _ => False) F (namedStatement (expressionWithin n) n x)
      (namedStatement (expressionWithin m) m x) s := by
  have hexp := settlesExp n
  refine .accept (by decide) hs (fun l s₁ heq hs₁ _ => ?_) fun _ => ?_
  · subst heq
    refine .closed (settles_arguments hexp hs₁ (by simp at hn; omega) (by omega) (by omega) (by omega))
      (by decide) hs₁ (fun _ _ => closes_afterArguments) ?_
    rintro us es r s₂ rfl hs₂ -
    exact .expect (by decide) hs₂ (fun _ _ => False.elim) fun _ _ _ _ _ => .pure _ fun _ => False.elim
  · refine .bind (settles_indexers hexp hs hn (Nat.le_refl n) hm hm) ?_
    rintro us es s₁ rfl -
    refine .accept (by decide) hs (fun q s₂ heq hs₂ _ => ?_) fun _ => ?_
    · subst heq
      refine .closed (settles_expression hs₂ (by simp at hn; omega) (by omega) beforeExpression_false)
        (by decide) hs₂ (fun _ _ _ => by decide) ?_
      intros
      cases es <;> exact .pure _ fun _ => False.elim
    · cases es with
      | nil =>
        refine .unexpected (by decide) fun k hk => List.mem_append_left _ ?_
        simpa [or_assoc] using hk
      | cons =>
        refine .unexpected (by decide) fun k hk => List.mem_append_left _ ?_
        simpa using hk

theorem settles_printStatement {k : PrintKind} {l : Location} (hs : s.last.kind = .eof)
    (hn : s.ahead.length < n) (hm : b ≤ m) :
    Settles b (fun _ => False) F (printStatement (expressionWithin n) k l)
      (printStatement (expressionWithin m) k l) s :=
  .closed (settles_expression hs hn hm beforeExpression_false) (by decide) hs (fun _ _ _ => by decide)
    fun _ _ _ _ _ _ _ => .pure _ fun _ => False.elim

theorem settles_returnStatement {l : Location} (hs : s.last.kind = .eof) (hn : s.ahead.length < n)
    (hm : b ≤ m) :
    Settles b (fun _ => False) F (returnStatement (expressionWithin n) l)
      (returnStatement (expressionWithin m) l) s := by
  refine .accept (by decide) hs (fun _ _ _ _ _ => .pure _ fun _ => False.elim) fun _ => ?_
  refine .closed (settles_expression hs hn hm ?_) (by decide) hs (fun _ _ _ => by decide)
    fun _ _ _ _ _ _ _ => .pure _ fun _ => False.elim
  rintro k (hk | rfl)
  · exact hk.elim
  · decide

/-! ## Statements with statements inside -/

/-- What the parser of statements with a bound of `n` depends on. -/
def SettlesStm (n : Nat) : Prop :=
  ∀ ⦃m s G⦄, s.last.kind = .eof → s.ahead.length < n →
    (s.head.kind ∉ statementStart → ∀ k, G k → k ∈ statementStart) →
    Settles m G (fun _ _ k => k ∈ [Kind.kwElse]) (statementWithin n) (statementWithin m) s

section Nested

variable (hstm : SettlesStm n)

include hstm

theorem settles_statement (hs : s.last.kind = .eof) (hn : s.ahead.length < n) (hm : b ≤ m) :
    Settles b (fun _ => False) (fun _ _ k => k ∈ [Kind.kwElse]) (statementWithin n) (statementWithin m) s :=
  (hstm hs hn fun _ _ => False.elim).mono hm

/-- Behind a statement an `ELSE` has been looked for, and before the first one perhaps a declaration. -/
theorem settles_statementsUntil {declarable : Bool} (hs : s.last.kind = .eof) (hi : s.ahead.length < i)
    (hn : i ≤ n) (hj : b ≤ j) (hm : b ≤ m)
    (helse : .kwElse ∈ passedOver (statementsUntil.alternatives stop false))
    (hG : ∀ k, G k → k ∈ statementsUntil.alternatives stop declarable ++
      passedOver (statementsUntil.alternatives stop declarable)) :
    Settles b G (fun _ s₁ _ => s₁.head.kind = stop)
      (statementsUntil (statementWithin n) stop i declarable)
      (statementsUntil (statementWithin m) stop j declarable) s := by
  induction i generalizing b j s G declarable with
  | zero =>
    exact absurd hi (Nat.not_lt_zero _)
  | succ i ih =>
    refine .of_succ (f := fun j => statementsUntil (statementWithin m) stop j declarable) hj ?_
    intro j hj
    by_cases hend : s.head.kind = stop
    · rw [statementsUntil, statementsUntil]
      refine .peek ?_
      rw [if_pos hend, if_pos hend]
      exact .pure _ fun _ _ => hend
    by_cases hstart : s.head.kind ∈ statementStart
    · rw [statementsUntil, statementsUntil]
      refine .peek ?_
      rw [if_neg hend, if_neg hend, if_pos hstart, if_pos hstart]
      refine .bind ((hstm hs (by omega) fun h => absurd hstart h).mono hm) ?_
      rintro us st s₁ rfl hnil
      -- A statement has a first token, or else nothing but an `ELSE` could be looked for.
      have hne : us ≠ [] := fun hus => absurd (hnil hus .ident trivial) (by decide)
      have hpos : 0 < us.length := List.length_pos_iff.2 hne
      refine .map (ih hs (by simp at hi; omega) (by omega) (by omega) (by omega) ?_) fun _ _ _ => id
      intro k hk
      obtain rfl := List.mem_singleton.1 hk
      exact List.mem_append_right _ helse
    · exact settles_statementsUntil_of_not_mem (by simp [hend, hstart]) hG

theorem settles_switchCases (hs : s.last.kind = .eof) (hi : s.ahead.length < i) (hn : i ≤ n) (hj : b ≤ j)
    (hm : b ≤ m) (hG : ∀ k, G k → k ∈ [Kind.kwElse]) :
    Settles b G (fun _ s₁ _ => s₁.head.kind = .kwDefault) (switchCases (statementWithin n) i)
      (switchCases (statementWithin m) j) s := by
  induction i generalizing b j s G with
  | zero =>
    exact absurd hi (Nat.not_lt_zero _)
  | succ i ih =>
    refine .of_succ hj ?_
    intro j hj
    by_cases hend : s.head.kind = .kwDefault
    · rw [switchCases, switchCases]
      refine .peek ?_
      rw [if_pos hend, if_pos hend]
      exact .pure _ fun _ _ => hend
    by_cases hstart : s.head.kind = .kwCase
    · rw [switchCases, switchCases]
      refine .peek ?_
      rw [if_neg hend, if_neg hend, if_pos hstart, if_pos hstart]
      obtain ⟨c, s₁, rfl, hs₁, -⟩ := exists_cons_of_ends hs (by decide) hstart
      refine .next (.closed (settles_signedInt hs₁) (by decide) hs₁ (fun _ _ _ _ => False.elim) ?_)
      rintro us v d s₂ rfl hs₂ -
      refine .bind (settles_statement hstm hs₂ (by simp at hi; omega) (by omega)) ?_
      rintro vs st s₃ rfl -
      exact .map (ih hs₂ (by simp at hi; omega) (by omega) (by omega) (by omega) fun _ => id)
        fun _ _ _ => id
    · exact .unstarted (by simp [hend, hstart]) switchCases_of_not_mem switchCases_of_not_mem (by decide)
        fun k hk => List.mem_append_right _ (hG k hk)

theorem settles_blockStatement {l : Location} (hs : s.last.kind = .eof) (hn : s.ahead.length < n)
    (hm : b ≤ m) :
    Settles b (fun _ => False) F (blockStatement (statementWithin n) n l)
      (blockStatement (statementWithin m) m l) s := by
  refine .closed (settles_statementsUntil hstm hs hn (Nat.le_refl n) hm hm (by decide)
    fun _ => False.elim) (by decide) hs (fun _ _ hne _ hend => absurd hend hne) ?_
  exact fun _ _ _ _ _ _ _ => .pure _ fun _ => False.elim

theorem settles_whileStatement {l : Location} (hs : s.last.kind = .eof) (hn : s.ahead.length < n)
    (hm : b ≤ m) :
    Settles b (fun _ => False) (fun _ _ k => k ∈ [Kind.kwElse])
      (whileStatement (expressionWithin n) (statementWithin n) l)
      (whileStatement (expressionWithin m) (statementWithin m) l) s := by
  refine .bind (settles_parenthesized hs hn hm) ?_
  rintro us c s₁ rfl -
  exact .map (settles_statement hstm hs (by simp at hn; omega) (by omega)) fun _ _ _ => id

theorem settles_ifStatement {l : Location} (hs : s.last.kind = .eof) (hn : s.ahead.length < n)
    (hm : b ≤ m) :
    Settles b (fun _ => False) (fun _ _ k => k ∈ [Kind.kwElse])
      (ifStatement (expressionWithin n) (statementWithin n) l)
      (ifStatement (expressionWithin m) (statementWithin m) l) s := by
  refine .bind (settles_parenthesized hs hn hm) ?_
  rintro us c s₁ rfl -
  refine .bind (settles_statement hstm hs (by simp at hn; omega) (by omega)) ?_
  rintro vs st s₂ rfl -
  refine .accept (by decide) hs (fun k s₃ heq hs₃ _ => ?_) fun _ => .pure _ (by simp)
  subst heq
  exact .map (settles_statement hstm hs₃ (by simp at hn; omega) (by omega)) fun _ _ _ => id

theorem settles_switchStatement {l : Location} (hs : s.last.kind = .eof) (hn : s.ahead.length < n)
    (hm : b ≤ m) :
    Settles b (fun _ => False) F (switchStatement (expressionWithin n) (statementWithin n) n l)
      (switchStatement (expressionWithin m) (statementWithin m) m l) s := by
  refine .closed (settles_parenthesized hs hn hm) (by decide) hs (fun _ _ _ _ => False.elim) ?_
  rintro us e d s₁ rfl hs₁ -
  refine .closed (settles_switchCases hstm hs₁ (by simp at hn; omega) (by omega) (by omega) (by omega)
    fun _ => False.elim) (by decide) hs₁ (fun _ _ hne _ hend => absurd hend hne) ?_
  rintro vs cs w s₂ rfl hs₂ -
  refine .expect (by decide) hs₂ (fun _ _ => False.elim) ?_
  rintro c s₃ rfl hs₃ -
  exact .closed (settles_statement hstm hs₃ (by simp at hn; omega) (by omega)) (by decide) hs₃
    (fun _ _ _ => by decide) fun _ _ _ _ _ _ _ => .pure _ fun _ => False.elim

end Nested

theorem settlesStm (n : Nat) : SettlesStm n := by
  induction n with
  | zero =>
    intro m s G hs hn
    exact absurd hn (Nat.not_lt_zero _)
  | succ n ih =>
    intro m s G hs hn hG
    refine .of_succ (Nat.le_refl m) ?_
    intro j hj
    by_cases hstart : s.head.kind ∉ statementStart
    · exact .unstarted hstart statementWithin_of_not_mem statementWithin_of_not_mem (by decide)
        fun k hk => List.mem_append_left _ (hG hstart k hk)
    have hne : s.head.kind ≠ .eof := by
      intro heof
      rw [heof] at hstart
      exact hstart (by decide)
    obtain ⟨t, s₁, rfl, hs₁, -⟩ := exists_cons_of_ends hs hne rfl
    have hn₁ : s₁.ahead.length < n := by simp at hn; omega
    have hj₁ : m - 1 ≤ j := by omega
    rw [statementWithin, statementWithin]
    refine .peek ?_
    rw [head_cons]
    cases hk : t.kind with
    | ident => exact .next (settles_namedStatement hs₁ hn₁ hj₁)
    | kwIf => exact .next (settles_ifStatement ih hs₁ hn₁ hj₁)
    | kwWhile => exact .next (settles_whileStatement ih hs₁ hn₁ hj₁)
    | kwSwitch => exact .next (settles_switchStatement ih hs₁ hn₁ hj₁)
    | lbrace => exact .next (settles_blockStatement ih hs₁ hn₁ hj₁)
    | kwPrint | kwPrintln | kwPrintch => exact .next (settles_printStatement hs₁ hn₁ hj₁)
    | kwNewline =>
      exact .next (.expect (by decide) hs₁ (fun _ _ => False.elim) fun _ _ _ _ _ =>
        .pure _ fun _ => False.elim)
    | kwReturn => exact .next (settles_returnStatement hs₁ hn₁ hj₁)
    | _ =>
      rw [head_cons, hk] at hstart
      exact absurd (by decide) hstart

end Parser

end Lpl
