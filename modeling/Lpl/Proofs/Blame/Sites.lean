import Lpl.Proofs.Blame.Faults
import Lpl.Proofs.Printing.WellFormed

/-!
# The tokens of uses and declarations

A tree that is derived from tokens has the location of one of these tokens at each use and at each
declaration. Which token that is, is said by what stands there: an identifier with or without a `(`
behind it, a `RETURN`, a `CASE` in the phrase of its switch, or the first token of a declaration.

Whether the last identifier of an expression is called is not seen in the tokens of the expression, so
expressions are taken with the token behind them (`Followed`). In a statement, each expression has such a
token and it is no `(`. As for well-formed trees, the proof goes by the number of tokens.
-/

namespace Lpl

open Grammar

/-- The tokens that a use stands for are among `ts`, side by side. -/
inductive Use.StandsIn (ts : List Token) : Use → Prop
  | var {x y : Token} : [x, y] <:+: ts → x.kind = .ident → y.kind ≠ .lparen →
      StandsIn ts (.var x.lexeme x.location)
  | call {x y : Token} : [x, y] <:+: ts → x.kind = .ident → y.kind = .lparen →
      StandsIn ts (.call x.lexeme x.location)
  | ret {w} : w ∈ ts → w.kind = .kwReturn → StandsIn ts (.ret w.location)
  | cases {us e cs d l} : us <:+: ts → Stm us (.switch e cs d l) → StandsIn ts (.cases cs)

theorem Use.StandsIn.mono {u : Use} {us ts : List Token} (h : u.StandsIn us) (hts : us <:+: ts) :
    u.StandsIn ts := by
  cases h with
  | var h hx hy => exact .var (h.trans hts) hx hy
  | call h hx hy => exact .call (h.trans hts) hx hy
  | ret h hw => exact .ret (hts.subset h) hw
  | cases h hs => exact .cases (h.trans hts) hs

namespace Grammar

/-! ## Phrases with a token behind them -/

section Lists

variable {α : Type} {P : Phrase α} {us : List Token} {a : α} {as : List α}

/-- A phrase and a token behind it, which is no `(`. -/
inductive Followed (P : Phrase α) : Phrase α
  | mk {us z a} : P us a → z.kind ≠ .lparen → Followed P (us ++ [z]) a

theorem Bracketed.followed (h : Bracketed P us a) : ∃ vs, vs <:+: us ∧ Followed P vs a := by
  obtain @⟨l, r, vs, a, _, h, hr⟩ := h
  exact ⟨vs ++ [r], ⟨[l], [], by simp⟩, .mk h (by simp [hr])⟩

theorem Parenthesized.followed (h : Parenthesized P us a) : ∃ vs, vs <:+: us ∧ Followed P vs a := by
  obtain @⟨l, r, vs, a, _, h, hr⟩ := h
  exact ⟨vs ++ [r], ⟨[l], [], by simp⟩, .mk h (by simp [hr])⟩

/-- Each of several phrases is followed by a comma or by what is behind the last one. -/
theorem Separated.followed (h : Separated P us as) {z : Token} (hz : z.kind ≠ .lparen) :
    ∀ a ∈ as, ∃ vs, vs <:+: us ++ [z] ∧ Followed P vs a := by
  induction h with
  | @one us a h => simpa using ⟨us ++ [z], List.infix_rfl, .mk h hz⟩
  | @more us c vs a as h hc _ ih =>
    rw [List.forall_mem_cons]
    refine ⟨⟨us ++ [c], ⟨[], vs ++ [z], by simp⟩, .mk h (by simp [hc])⟩, fun b hb => ?_⟩
    obtain ⟨ws, hws, hb⟩ := ih b hb
    exact ⟨ws, hws.trans ⟨us ++ [c], [], by simp⟩, hb⟩

theorem arguments_followed (h : Parenthesized (Listed P) us as) :
    ∀ a ∈ as, ∃ vs, vs <:+: us ∧ Followed P vs a := by
  obtain @⟨l, r, vs, as, _, h, hr⟩ := h
  cases h with
  | none => simp
  | some h =>
    intro a ha
    obtain ⟨ws, hws, ha⟩ := h.followed (z := r) (by simp [hr]) a ha
    exact ⟨ws, hws.trans ⟨[l], [], by simp⟩, ha⟩

theorem indices_followed (h : Many (Bracketed P) us as) :
    ∀ a ∈ as, ∃ vs, vs <:+: us ∧ Followed P vs a :=
  h.forall_mem fun vs a hvs ha => by
    obtain ⟨ws, hws, ha⟩ := ha.followed
    exact ⟨ws, hws.trans hvs, ha⟩

end Lists

/-! ## Uses in expressions -/

/-- The uses in trees of phrases of at most `n` tokens stand in their tokens. -/
def Sites {α : Type} (n : Nat) (P : Phrase α) (uses : α → List Use) : Prop :=
  ∀ ⦃us a⦄, us.length ≤ n → P us a → ∀ u ∈ uses a, u.StandsIn us

theorem Sites.part {α : Type} {n : Nat} {P : Phrase α} {uses : α → List Use} (h : Sites n P uses)
    {us vs : List Token} {a : α} (hn : us.length ≤ n) (hvs : vs <:+: us) (ha : P vs a) :
    ∀ u ∈ uses a, u.StandsIn us := fun u hu =>
  (h (Nat.le_trans hvs.length_le hn) ha u hu).mono hvs

theorem stands_reference {x z : Token} {us rest : List Token} {es : List Expr} (hx : x.kind = .ident)
    (hes : Many (Bracketed Exp) us es) (hz : z.kind ≠ .lparen) :
    (Use.var x.lexeme x.location).StandsIn (x :: us ++ z :: rest) := by
  cases hes with
  | nil => exact .var (y := z) ⟨[], rest, rfl⟩ hx hz
  | @cons us vs e es he _ =>
    obtain @⟨l, r, ws, _, hl, _, _⟩ := he
    exact .var (y := l) ⟨[], ws ++ r :: vs ++ z :: rest, by simp⟩ hx (by simp [hl])

theorem stands_call {x : Token} {us rest : List Token} {es : List Expr} (hx : x.kind = .ident)
    (hes : Parenthesized (Listed Exp) us es) :
    (Use.call x.lexeme x.location).StandsIn (x :: us ++ rest) := by
  obtain @⟨l, r, vs, _, hl, _, _⟩ := hes
  exact .call (y := l) ⟨[], vs ++ r :: rest, by simp⟩ hx hl

theorem uses_reference (x : Token) (es : List Expr) :
    (reference x es).uses = .var x.lexeme x.location :: Expr.usesAll es := by
  cases es <;> rfl

theorem op_ne_lparen {k : Token.Kind} {op : BinaryOp} (h : Op k op) : k ≠ .lparen := by
  cases h <;> decide

section Expressions

variable {n : Nat} {us : List Token} (hexp : Sites n (Followed Exp) Expr.uses) (hn : us.length ≤ n)

include hexp hn

theorem stands_all {es : List Expr} (h : ∀ e ∈ es, ∃ vs, vs <:+: us ∧ Followed Exp vs e) :
    ∀ u ∈ Expr.usesAll es, u.StandsIn us := by
  intro u hu
  obtain ⟨e, he, hu⟩ := Expr.mem_usesAll.1 hu
  obtain ⟨vs, hvs, he⟩ := h e he
  exact hexp.part hn hvs he u hu

theorem stands_arguments {es : List Expr} (h : Parenthesized (Listed Exp) us es) :
    ∀ u ∈ Expr.usesAll es, u.StandsIn us :=
  stands_all hexp hn (arguments_followed h)

theorem stands_indices {es : List Expr} (h : Many (Bracketed Exp) us es) :
    ∀ u ∈ Expr.usesAll es, u.StandsIn us :=
  stands_all hexp hn (indices_followed h)

theorem stands_parenthesized {e : Expr} (h : Parenthesized Exp us e) :
    ∀ u ∈ e.uses, u.StandsIn us := by
  obtain ⟨vs, hvs, h⟩ := h.followed
  exact hexp.part hn hvs h

end Expressions

theorem sites_exp_of_simple {n : Nat} (hsimple : Sites n (Followed SimpleExp) Expr.uses) :
    Sites n (Followed Exp) Expr.uses := by
  intro ws e hn h
  obtain @⟨ws, z, e, h, hz⟩ := h
  cases h with
  | simple h => exact hsimple hn (.mk h hz)
  | @binary us o vs op a b ha ho hb =>
    have hleft := hsimple.part hn ⟨[], vs ++ [z], by simp⟩ (.mk ha (op_ne_lparen ho))
    have hright := hsimple.part hn ⟨us ++ [o], [], by simp⟩ (.mk hb hz)
    intro u hu
    exact (List.mem_append.1 hu).elim (hleft u) (hright u)

theorem sites_simpleExp (n : Nat) : Sites n (Followed SimpleExp) Expr.uses := by
  induction n with
  | zero =>
    intro us e hn h
    obtain ⟨_, _⟩ := h
    simp at hn
  | succ n ih =>
    have hexp := sites_exp_of_simple ih
    intro ws e hn h
    obtain @⟨ws, z, e, h, hz⟩ := h
    cases h with
    | @call x us es hx hes =>
      have hargs := stands_arguments hexp (by simp at hn; omega) hes
      intro u hu
      rcases List.mem_cons.1 hu with rfl | hu
      · exact stands_call hx hes
      · exact (hargs u hu).mono ⟨[x], [z], by simp⟩
    | @named x us es hx hes =>
      have hindices := stands_indices hexp (by simp at hn; omega) hes
      rw [uses_reference]
      intro u hu
      rcases List.mem_cons.1 hu with rfl | hu
      · exact stands_reference hx hes hz
      · exact (hindices u hu).mono ⟨[x], [z], by simp⟩
    | @length x d k us es hx hes hd _ =>
      have hindices := stands_indices hexp (by simp at hn; omega) hes
      rw [Expr.uses, uses_reference]
      intro u hu
      rcases List.mem_cons.1 hu with rfl | hu
      · have hstands : (Use.var x.lexeme x.location).StandsIn (x :: us ++ d :: [k, z]) :=
          stands_reference hx hes (by simp [hd])
        exact hstands.mono ⟨[], [], by simp⟩
      · exact (hindices u hu).mono ⟨[x], [d, k, z], by simp⟩
    | int _ => simp [Expr.uses]
    | @neg m t us e _ _ he =>
      intro u hu
      have hfollowed : Followed SimpleExp (t :: us ++ [z]) e := .mk he hz
      exact (ih (by simpa using hn) hfollowed u hu).mono (List.suffix_cons m _).isInfix
    | @not b us e _ he =>
      intro u hu
      exact (ih (by simpa using hn) (.mk he hz) u hu).mono (List.suffix_cons b _).isInfix
    | @new w i us vs ws e es k _ _ he hes _ =>
      obtain ⟨us', hus, he⟩ := he.followed
      have hlength := hus.length_le
      have hsize := hexp (by simp at hn; omega) he
      have hsizes := stands_indices hexp (by simp at hn; omega) hes
      intro u hu
      rcases List.mem_append.1 hu with hu | hu
      · exact (hsize u hu).mono (hus.trans ⟨[w, i], vs ++ ws ++ [z], by simp⟩)
      · exact (hsizes u hu).mono ⟨w :: i :: us, ws ++ [z], by simp⟩
    | null _ => simp [Expr.uses]
    | parens h =>
      obtain @⟨l, r, us, e, _, h, hr⟩ := h
      have hfollowed : Followed Exp (us ++ [r]) e := .mk h (by simp [hr])
      intro u hu
      exact (hexp (by simp at hn ⊢; omega) hfollowed u hu).mono ⟨[l], [z], by simp⟩

theorem sites_exp (n : Nat) : Sites n (Followed Exp) Expr.uses :=
  sites_exp_of_simple (sites_simpleExp n)

/-! ## Uses in statements -/

theorem uses_assignment (x : Token) (e : Expr) (es : List Expr) :
    (assignment x e es).uses = .var x.lexeme x.location :: (Expr.usesAll es ++ e.uses) := by
  cases es <;> rfl

theorem sites_stm (n : Nat) : Sites n Stm Stmt.uses := by
  induction n with
  | zero =>
    intro us s hn h
    obtain ⟨t, us, rfl, -⟩ := starts_stm h
    simp at hn
  | succ n ih =>
    have hexp := sites_exp n
    intro ts s hn h
    cases h with
    | @call x z us es hx hes _ =>
      have hargs := stands_arguments hexp (by simp at hn; omega) hes
      intro u hu
      rcases List.mem_cons.1 hu with rfl | hu
      · exact stands_call hx hes
      · exact (hargs u hu).mono ⟨[x], [z], by simp⟩
    | @assign x q z us vs es e hx hes hq he hz =>
      have hindices := stands_indices hexp (by simp at hn; omega) hes
      have hfollowed : Followed Exp (vs ++ [z]) e := .mk he (by simp [hz])
      have hvalue := hexp (by simp at hn ⊢; omega) hfollowed
      rw [uses_assignment]
      intro u hu
      rcases List.mem_cons.1 hu with rfl | hu
      · have hstands : (Use.var x.lexeme x.location).StandsIn (x :: us ++ q :: (vs ++ [z])) :=
          stands_reference hx hes (by simp [hq])
        exact hstands.mono ⟨[], [], by simp⟩
      rcases List.mem_append.1 hu with hu | hu
      · exact (hindices u hu).mono ⟨[x], q :: vs ++ [z], by simp⟩
      · exact (hvalue u hu).mono ⟨x :: us ++ [q], [], by simp⟩
    | @ifThen i us vs c s _ hc hs =>
      have hcondition := stands_parenthesized hexp (by simp at hn; omega) hc
      have hbranch := ih (by simp at hn; omega) hs
      intro u hu
      rcases List.mem_append.1 hu with hu | hu
      · exact (hcondition u hu).mono ⟨[i], vs, by simp⟩
      · exact (hbranch u hu).mono ⟨i :: us, [], by simp⟩
    | @ifElse i us vs j ws c s t _ hc hs _ _ ht =>
      have hcondition := stands_parenthesized hexp (by simp at hn; omega) hc
      have hthen := ih (by simp at hn; omega) hs
      have helse := ih (by simp at hn; omega) ht
      intro u hu
      rcases List.mem_append.1 hu with hu | hu
      · exact (hcondition u hu).mono ⟨[i], vs ++ j :: ws, by simp⟩
      rcases List.mem_append.1 hu with hu | hu
      · exact (hthen u hu).mono ⟨i :: us, j :: ws, by simp⟩
      · exact (helse u hu).mono ⟨i :: us ++ vs ++ [j], [], by simp⟩
    | @whileDo w us vs c s _ hc hs =>
      have hcondition := stands_parenthesized hexp (by simp at hn; omega) hc
      have hbody := ih (by simp at hn; omega) hs
      intro u hu
      rcases List.mem_append.1 hu with hu | hu
      · exact (hcondition u hu).mono ⟨[w], vs, by simp⟩
      · exact (hbody u hu).mono ⟨w :: us, [], by simp⟩
    | @switch w l d k r us vs ws e cs s hw he hl hcs hd hk hs hr =>
      have hsubject := stands_parenthesized hexp (by simp at hn; omega) he
      have hcases : ∀ c ∈ cs, ∀ u ∈ c.body.uses, u.StandsIn vs := by
        refine hcs.forall_mem fun vs' c hvs' hc => ?_
        have hlength := hvs'.length_le
        obtain @⟨c, us', d', vs'', v, s', _, _, _, hs'⟩ := hc
        have harm := ih (by simp at hn hlength; omega) hs'
        exact fun u hu => (harm u hu).mono (List.IsInfix.trans ⟨c :: us' ++ [d'], [], by simp⟩ hvs')
      have hdefault := ih (by simp at hn; omega) hs
      intro u hu
      rcases List.mem_cons.1 hu with rfl | hu
      · exact .cases List.infix_rfl (.switch hw he hl hcs hd hk hs hr)
      rcases List.mem_append.1 hu with hu | hu
      · obtain ⟨c, hc, hu⟩ := SwitchCase.mem_usesAll.1 hu
        exact (hcases c hc u hu).mono ⟨w :: us ++ [l], d :: k :: ws ++ [r], by simp⟩
      rcases List.mem_append.1 hu with hu | hu
      · exact (hsubject u hu).mono ⟨[w], l :: vs ++ d :: k :: ws ++ [r], by simp⟩
      · exact (hdefault u hu).mono ⟨w :: us ++ l :: vs ++ [d, k], [r], by simp⟩
    | @block l r us ss _ hss _ =>
      intro u hu
      obtain ⟨s, hs, hu⟩ := Stmt.mem_usesAll.1 hu
      have hstands : ∀ s ∈ ss, ∀ u ∈ s.uses, u.StandsIn us :=
        hss.forall_mem fun vs s hvs hs => ih.part (by simp at hn; omega) hvs hs
      exact (hstands s hs u hu).mono ⟨[l], [r], rfl⟩
    | @print w z us k e _ he hz =>
      have hfollowed : Followed Exp (us ++ [z]) e := .mk he (by simp [hz])
      exact fun u hu =>
        (hexp (by simpa using hn) hfollowed u hu).mono (List.suffix_cons w _).isInfix
    | newline _ _ => simp [Stmt.uses]
    | @ret w z hw _ =>
      intro u hu
      obtain rfl := List.mem_singleton.1 hu
      exact .ret (by simp) hw
    | @retValue w z us e hw he hz =>
      have hfollowed : Followed Exp (us ++ [z]) e := .mk he (by simp [hz])
      intro u hu
      rcases List.mem_cons.1 hu with rfl | hu
      · exact .ret (by simp) hw
      · exact (hexp (by simpa using hn) hfollowed u hu).mono (List.suffix_cons w _).isInfix

/-! ## Declarations -/

/-- A tree is derived from tokens among `ts`. -/
def Derived {α : Type} (P : Phrase α) (ts : List Token) (a : α) : Prop := ∃ us, us <:+: ts ∧ P us a

theorem Derived.mono {α : Type} {P : Phrase α} {us ts : List Token} {a : α} (h : Derived P us a)
    (hts : us <:+: ts) : Derived P ts a := by
  obtain ⟨vs, hvs, ha⟩ := h
  exact ⟨vs, hvs.trans hts, ha⟩

/-- The parts of a body, all of them before its last token. -/
theorem body_parts {opening closing : Token.Kind} {us : List Token} {b : List Decl × List Stmt}
    (h : Body opening closing us b) :
    ∃ vs z, us = vs ++ [z] ∧ z.kind = closing ∧ (∀ d ∈ b.1, Derived TypedName vs d) ∧
      ∀ u ∈ Stmt.usesAll b.2, u.StandsIn vs := by
  obtain @⟨l, r, us, vs, ds, ss, _, hds, hss, hr⟩ := h
  refine ⟨l :: us ++ vs, r, rfl, hr, ?_, fun u hu => ?_⟩
  · refine hds.forall_mem fun ws d hws hd => ?_
    obtain @⟨z, ws, d, hd, _⟩ := hd
    have hprefix : ws <:+: us := List.IsInfix.trans (List.prefix_append ws [z]).isInfix hws
    exact ⟨ws, hprefix.trans ⟨[l], vs, rfl⟩, hd⟩
  · obtain ⟨s, hs, hu⟩ := Stmt.mem_usesAll.1 hu
    have hstands : ∀ s ∈ ss, ∀ u ∈ s.uses, u.StandsIn vs :=
      hss.forall_mem fun ws s hws hs => (sites_stm _).part (Nat.le_refl _) hws hs
    exact (hstands s hs u hu).mono ⟨l :: us, [], by simp⟩

theorem method_parts {us : List Token} {m : Method} (h : MethodDef us m) :
    (∀ d ∈ m.params ++ m.locals, Derived TypedName us d) ∧
      ∀ u ∈ Stmt.usesAll m.body, u.StandsIn us := by
  obtain ⟨vs, type, l, hvs, h⟩ : ∃ vs type l, vs <:+: us ∧ MethodRest type l vs m := by
    cases h with
    | @function f us vs ty m _ _ h => exact ⟨vs, _, _, (List.suffix_append (f :: us) vs).isInfix, h⟩
    | @procedure f us m _ h => exact ⟨us, _, _, (List.suffix_cons f us).isInfix, h⟩
  obtain @⟨x, vs, ws, ps, ds, ss, _, hps, hbody⟩ := h
  obtain ⟨ws, z, rfl, -, hds, hss⟩ := body_parts hbody
  have hrest : ws <:+: us := List.IsInfix.trans ⟨x :: vs, [z], by simp⟩ hvs
  constructor
  · rw [List.forall_mem_append]
    constructor
    · intro d hd
      obtain ⟨vs', hvs', hps⟩ := hps.inside
      have hderived : Derived TypedName vs' d := hps.forall_mem (fun us d hus hd => ⟨us, hus, hd⟩) d hd
      exact hderived.mono (hvs'.trans (List.IsInfix.trans ⟨[x], ws ++ [z], by simp⟩ hvs))
    · exact fun d hd => (hds d hd).mono hrest
  · exact fun u hu => (hss u hu).mono hrest

/-- Where the parts of a program stand. -/
theorem program_parts {ts : List Token} {p : Lpl.Program} (h : Program ts p) :
    ∃ vs z ws, ts = vs ++ z :: ws ∧ z.kind = .kwEnd ∧
      Body .kwBegin .kwEnd (vs ++ [z]) (p.globals, p.body) ∧
      (∀ d ∈ p.globals, Derived TypedName ts d) ∧ (∀ u ∈ Stmt.usesAll p.body, u.StandsIn vs) ∧
      ∀ m ∈ p.methods, Derived MethodDef ts m := by
  obtain @⟨us, ws, ds, ss, ms, hbody, hms⟩ := h
  obtain ⟨vs, z, rfl, hz, hds, hss⟩ := body_parts hbody
  refine ⟨vs, z, ws, by simp, hz, hbody, fun d hd => (hds d hd).mono ⟨[], z :: ws, by simp⟩, hss, ?_⟩
  exact hms.forall_mem fun us m hus hm => ⟨us, hus.trans (List.suffix_append (vs ++ [z]) ws).isInfix, hm⟩

end Grammar

end Lpl
