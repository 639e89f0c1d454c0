import Lpl.Proofs.Errors.Stmt
import Lpl.Proofs.Parsing.Program
import Lpl.Token.Vector
import Mathlib.Data.List.TakeWhile
import Mathlib.Order.WellFounded

/-!
# Syntax errors are met at the earliest token

**Theorem (`syntax_error_earliest`).** The token that a syntax error is about is the first one with which
no program can go on. The tokens before it start some program, and so they do with a token of each kind
that the error lists behind them.

What is said of programs is said of declarations, methods and bodies first, in the manner of the parsers
for expressions and statements. A token list that the grammar derives has no end of file in it
(`noEof_program`), so it is read to its end and is a program that is accepted (`accepted_of_program`).
-/

namespace Lpl

/-! ## Derived tokens -/

namespace Grammar

open Token (sample kind_sample)

/-- No end of the file is among the tokens. -/
def NoEof (us : List Token) : Prop := ∀ t ∈ us, t.kind ≠ .eof

section

variable {α : Type} {P : Phrase α} {us vs : List Token} {t : Token} {k : Token.Kind} {as : List α}

@[grind .] theorem noEof_nil : NoEof [] := List.forall_mem_nil _

@[grind =] theorem noEof_cons : NoEof (t :: us) ↔ t.kind ≠ .eof ∧ NoEof us := List.forall_mem_cons

@[grind =] theorem noEof_append : NoEof (us ++ vs) ↔ NoEof us ∧ NoEof vs := List.forall_mem_append

@[grind →] theorem Op.ne_eof {op : BinaryOp} (h : Op k op) : k ≠ .eof := by cases h <;> decide

@[grind →] theorem Print.ne_eof {p : PrintKind} (h : Print k p) : k ≠ .eof := by cases h <;> decide

@[grind →] theorem noEof_signedInt {v : Int32} (h : SignedInt us v) : NoEof us := by
  obtain ⟨hliteral, -⟩ := h
  cases hliteral <;> grind

@[grind →] theorem noEof_emptyBrackets {n : Nat} (h : EmptyBrackets us n) : NoEof us := by
  induction h <;> grind

theorem noEof_many (hP : ∀ ⦃us a⦄, P us a → NoEof us) (h : Many P us as) : NoEof us := by
  induction h <;> grind

theorem noEof_separated (hP : ∀ ⦃us a⦄, P us a → NoEof us) (h : Separated P us as) : NoEof us := by
  induction h <;> grind

theorem noEof_listed (hP : ∀ ⦃us a⦄, P us a → NoEof us) (h : Listed P us as) : NoEof us := by
  cases h with
  | none => exact noEof_nil
  | some h => exact noEof_separated hP h

/-- One property of all the phrases inside an expression, and so there is a single motive. -/
@[grind →] theorem noEof_exp {e : Expr} (h : Exp us e) : NoEof us := by
  refine @Exp.rec (fun us _ _ => NoEof us) (fun us _ _ => NoEof us) (fun us _ _ => NoEof us)
    (fun us _ _ => NoEof us) (fun us _ _ => NoEof us) (fun us _ _ => NoEof us)
    (fun us _ _ => NoEof us) (fun us _ _ => NoEof us)
    ?_ ?_ ?_ ?_ ?_ ?_ ?_ ?_ ?_ ?_ ?_ ?_ ?_ ?_ ?_ ?_ ?_ ?_ ?_ ?_ us e h
  all_goals grind

theorem noEof_bracketed {a : α} (hP : ∀ ⦃us a⦄, P us a → NoEof us) (h : Bracketed P us a) :
    NoEof us := by
  cases h
  grind

theorem noEof_parenthesized {a : α} (hP : ∀ ⦃us a⦄, P us a → NoEof us) (h : Parenthesized P us a) :
    NoEof us := by
  cases h
  grind

@[grind →] theorem noEof_indexers {es : List Expr} (h : Many (Bracketed Exp) us es) : NoEof us :=
  noEof_many (fun _ _ => noEof_bracketed fun _ _ => noEof_exp) h

@[grind →] theorem noEof_condition {e : Expr} (h : Parenthesized Exp us e) : NoEof us :=
  noEof_parenthesized (fun _ _ => noEof_exp) h

@[grind →] theorem noEof_actuals {es : List Expr} (h : Parenthesized (Listed Exp) us es) : NoEof us :=
  noEof_parenthesized (fun _ _ => noEof_listed fun _ _ => noEof_exp) h

theorem noEof_stm {s : Stmt} (h : Stm us s) : NoEof us := by
  refine @Stm.rec (fun us _ _ => NoEof us) (fun us _ _ => NoEof us) (fun us _ _ => NoEof us)
    (fun us _ _ => NoEof us) ?_ ?_ ?_ ?_ ?_ ?_ ?_ ?_ ?_ ?_ ?_ ?_ ?_ ?_ ?_ ?_ us s h
  all_goals grind

@[grind →] theorem noEof_typeName {ty : VarType} (h : TypeName us ty) : NoEof us := by
  cases h
  grind

theorem noEof_typedName {d : Decl} (h : TypedName us d) : NoEof us := by
  cases h
  grind

theorem noEof_varDecl {d : Decl} (h : VarDecl us d) : NoEof us := by
  cases h with
  | mk hd hz => grind [noEof_typedName hd]

@[grind →] theorem noEof_body {opening closing : Token.Kind} {b : List Decl × List Stmt}
    (h : Body opening closing us b) (hopening : opening ≠ .eof) (hclosing : closing ≠ .eof) :
    NoEof us := by
  cases h with
  | mk hl hds hss hr =>
    grind [noEof_many (fun _ _ => noEof_varDecl) hds, noEof_many (fun _ _ => noEof_stm) hss]

@[grind →] theorem noEof_methodRest {type : Option VarType} {l : Location} {m : Method}
    (h : MethodRest type l us m) : NoEof us := by
  cases h with
  | mk hx hps hbody =>
    grind [noEof_parenthesized (fun _ _ => noEof_listed fun _ _ => noEof_typedName) hps]

theorem noEof_methodDef {m : Method} (h : MethodDef us m) : NoEof us := by
  cases h <;> grind

theorem noEof_program {p : Lpl.Program} (h : Program us p) : NoEof us := by
  cases h with
  | mk hbody hms => grind [noEof_many (fun _ _ => noEof_methodDef) hms]

end

theorem varDecl_sample :
    VarDecl [sample .kwInt, sample .ident, sample .semicolon] ⟨"0", ⟨0⟩, .start⟩ :=
  .mk (.mk (.mk rfl .none) rfl) rfl

theorem formals_sample : Parenthesized (Listed TypedName) [sample .lparen, sample .rparen] [] :=
  .mk (kind_sample .lparen) Listed.none (kind_sample .rparen)

theorem body_sample {opening closing : Token.Kind} :
    Body opening closing [sample opening, sample closing] ([], []) :=
  .mk (kind_sample opening) .nil .nil (kind_sample closing)

end Grammar

namespace Parser

open TokenStream Grammar TokenLanguage
open Token (sample kind_sample)

variable {n m b i j : Nat} {s : TokenStream} {L : TokenLanguage}

/-! ## Declarations -/

theorem reports_identifier (hs : Clean s) (hL : ∃ vs, L (sample .ident :: vs)) :
    Reports b L identifier identifier s :=
  .expect (by decide) hs hL fun _ _ _ _ _ => .pure _

theorem reports_varType (hs : Clean s) (hn : s.ahead.length < n + 1) (hm : b ≤ m + 1)
    (hL : Continues TypeName L) : Reports b L (varType n) (varType m) s := by
  refine .expect (by decide) hs (hL (.mk (kind_sample .kwInt) .none)) ?_
  rintro t s₁ rfl hs₁ ht
  exact .map (reports_emptyBrackets hs₁ (by simpa using hn) (by omega) fun us k hus => hL (.mk ht hus))

theorem reports_typedName (hs : Clean s) (hn : s.ahead.length < n + 1) (hm : b ≤ m + 1)
    (hL : Continues TypedName L) : Reports b L (typedName n) (typedName m) s := by
  have hname : Follows .ident TypeName L := by
    intro us ty hty
    cases hty with
    | mk ht hus => simpa using hL (.mk (.mk ht hus) (kind_sample .ident))
  refine .peek (.bind (reads_varType n) hs (reports_varType hs hn hm hname.continues) ?_)
  rintro us ty s₁ rfl hs₁ hty
  exact .map (reports_identifier hs₁ (hname hty))

theorem reports_declarations (hs : Clean s) (hi : s.ahead.length < i) (hj : b ≤ j)
    (hL : Continues (Many VarDecl) L) : Reports b L (declarations i) (declarations j) s := by
  induction i generalizing b j s L with
  | zero =>
    exact absurd hi (Nat.not_lt_zero _)
  | succ i ih =>
    refine .of_succ hj ?_
    intro j hj
    refine .sees (fun _ => ?_) fun _ => .pure _
    have hsemicolon : Follows .semicolon TypedName L := by
      intro us d hd
      obtain ⟨vs, hvs⟩ := hL (.cons (.mk hd (kind_sample .semicolon)) .nil)
      exact ⟨_, by simpa using hvs⟩
    refine .closed (reads_typedName i) (by decide) hs hsemicolon (reports_typedName hs hi hj) ?_
    rintro us d z s₁ rfl hs₁ hd hz
    refine .map (ih hs₁ (by simp at hi; omega) (by omega) fun vs ds hds => ?_)
    simpa [after] using hL (.cons (.mk hd hz) hds)

theorem reports_typedNames (hs : Clean s) (hi : s.ahead.length < i) (hj : b ≤ j)
    (hL : Continues (Separated TypedName) L) : Reports b L (typedNames i) (typedNames j) s := by
  have hone : Continues TypedName L := fun us d hd => hL (.one hd)
  induction i generalizing b j s L with
  | zero =>
    exact absurd hi (Nat.not_lt_zero _)
  | succ i ih =>
    refine .of_succ hj ?_
    intro j hj
    refine .bind (reads_typedName i) hs (reports_typedName hs hi hj hone) ?_
    rintro us d s₁ rfl hs₁ hd
    refine .accept (by decide) hs₁ (fun c s₂ heq hs₂ hc => ?_) fun _ => .pure _
    subst heq
    have hmore : Continues (Separated TypedName) (after [c] (after us L)) := fun vs ds hds => by
      simpa [after] using hL (.more hd hc hds)
    exact .map (ih hs₂ (by simp at hi; omega) (by omega) hmore fun vs d hd => hmore (.one hd))

theorem reports_formals (hs : Clean s) (hn : s.ahead.length < n) (hm : b ≤ m)
    (hL : Continues (Listed TypedName) L) : Reports b L (formals n) (formals m) s :=
  .sees (fun _ => reports_typedNames hs hn hm fun _ _ hds => hL (.some hds)) fun _ => .pure _

/-! ## Bodies and methods -/

theorem reports_body {opening closing : Token.Kind} {l : Token} (hl : l.kind = opening)
    (hclosing : closing ≠ .eof) (hs : Clean s) (hn : s.ahead.length < n) (hm : b ≤ m)
    (hL : Continues (fun us c => Body opening closing (l :: us) c) L) :
    Reports b L (body closing n) (body closing m) s := by
  have hclose : ∀ {us ds}, Many VarDecl us ds → Follows closing (Many Stm) (after us L) := by
    intro us ds hds vs ss hss
    simpa [after] using hL (.mk hl hds hss (kind_sample closing))
  refine .bind (reads_declarations n) hs (reports_declarations hs hn hm fun us ds hds => ?_) ?_
  · exact (hclose hds .nil).imp' (sample closing :: ·) fun _ hvs => hvs
  rintro us ds s₁ rfl hs₁ hds
  refine .closed (reads_statementsUntil (reads_statementWithin n) closing n true) hclosing hs₁
    (hclose hds) (fun _ => ?_) fun _ _ _ _ _ _ _ _ => .pure _
  refine reports_statementsUntil (reportsStm n) hs₁ (by simp at hn; omega) (Nat.le_refl n) (by omega)
    (by omega) hclosing (hclose hds) fun _ => ?_
  -- One more declaration is possible as long as there is no statement.
  obtain ⟨vs, hvs⟩ := hclose (hds.append (.cons varDecl_sample .nil)) .nil
  exact ⟨_, by simpa [after] using hvs⟩

theorem reports_methodRest {type : Option VarType} {l : Location} (hs : Clean s)
    (hn : s.ahead.length < n) (hm : b ≤ m) (hL : Continues (MethodRest type l) L) :
    Reports b L (methodRest n type l) (methodRest m type l) s := by
  obtain ⟨vs, hvs⟩ := hL (.mk (kind_sample .ident) formals_sample body_sample)
  refine .bind reads_identifier hs (reports_identifier hs ⟨_, hvs⟩) ?_
  rintro _ _ s₁ rfl hs₁ ⟨x, rfl, hx, rfl⟩
  obtain ⟨vs, hvs⟩ := hL (.mk hx formals_sample body_sample)
  refine .expect (by decide) hs₁ ⟨_, hvs⟩ ?_
  rintro p s₂ rfl hs₂ hp
  refine .closed (reads_formals n) (by decide) hs₂ (fun us ps hps => ?_)
    (reports_formals hs₂ (by simp at hn; omega) (by simp; omega)) ?_
  · obtain ⟨vs, hvs⟩ := hL (.mk hx (.mk hp hps (kind_sample .rparen)) body_sample)
    exact ⟨_, by simpa [after] using hvs⟩
  rintro us ps q s₃ rfl hs₃ hps hq
  obtain ⟨vs, hvs⟩ := hL (.mk hx (.mk hp hps hq) body_sample)
  refine .expect (by decide) hs₃ ⟨_, by simpa [after] using hvs⟩ ?_
  rintro k s₄ rfl hs₄ hk
  refine .bind (reads_body (by decide) n hk) hs₄ (reports_body hk (by decide) hs₄ (by simp at hn; omega)
    (by simp; omega) fun vs c hc => ?_) fun _ _ _ _ _ _ => .pure _
  simpa [after] using hL (.mk hx (.mk hp hps hq) hc)

theorem reports_methods (hs : Clean s) (hi : s.ahead.length < i) (hj : b ≤ j)
    (hL : Continues (Many MethodDef) L) : Reports b L (methods i) (methods j) s := by
  induction i generalizing b j s L with
  | zero =>
    exact absurd hi (Nat.not_lt_zero _)
  | succ i ih =>
    refine .of_succ hj ?_
    intro j hj
    rw [methods, methods]
    refine .peek ?_
    cases hk : s.head.kind with
    | kwFun =>
      obtain ⟨f, s₁, rfl, hs₁, hf⟩ := hs.exists_cons (by decide) hk
      refine .next (.bind (reads_varType i) hs₁ (reports_varType hs₁ (by simp at hi; omega) (by omega)
        fun us ty hty => ?_) ?_)
      · obtain ⟨vs, hvs⟩ := hL (.cons (.function hf hty
          (.mk (kind_sample .ident) formals_sample body_sample)) .nil)
        exact ⟨_, by simpa [after] using hvs⟩
      rintro us ty s₂ rfl hs₂ hty
      refine .bind (reads_methodRest i _ _) hs₂ (reports_methodRest hs₂ (by simp at hi; omega)
        (by omega) fun vs c hc => ?_) ?_
      · simpa [after] using hL (.cons (.function hf hty hc) .nil)
      rintro vs c s₃ rfl hs₃ hc
      refine .map (ih hs₃ (by simp at hi; omega) (by omega) fun ws cs hcs => ?_)
      simpa [after] using hL (.cons (.function hf hty hc) hcs)
    | kwProc =>
      obtain ⟨f, s₁, rfl, hs₁, hf⟩ := hs.exists_cons (by decide) hk
      refine .next (.bind (reads_methodRest i _ _) hs₁ (reports_methodRest hs₁ (by simp at hi; omega)
        (by omega) fun us c hc => ?_) ?_)
      · simpa [after] using hL (.cons (.procedure hf hc) .nil)
      rintro us c s₂ rfl hs₂ hc
      refine .map (ih hs₂ (by simp at hi; omega) (by omega) fun vs cs hcs => ?_)
      simpa [after] using hL (.cons (.procedure hf hc) hcs)
    | _ => exact .pure _

/-! ## Programs -/

/-- The token lists that the grammar derives. -/
def Derived : TokenLanguage := fun ts => ∃ p, Grammar.Program ts p

/-- Behind a program there may be another method, or nothing. -/
theorem leads_programEnd {us vs : List Token} {ds : List Decl} {ss : List Stmt} {ms : List Method}
    (hbody : Body .kwBegin .kwEnd us (ds, ss)) (hms : Many MethodDef vs ms) :
    Leads (after (us ++ vs) Derived) [] [.kwFun, .kwProc, .eof] := by
  have hmore : ∀ {ws c}, MethodDef ws c → after (us ++ vs) Derived ws := by
    intro ws c hc
    exact ⟨_, by simpa using Grammar.Program.mk hbody (hms.append (.cons hc .nil))⟩
  have hrest : ∀ {type l}, MethodRest type l _ _ :=
    fun {type l} => .mk (kind_sample .ident) formals_sample body_sample
  have hfun := hmore (.function (kind_sample .kwFun) (.mk (kind_sample .kwInt) .none) hrest)
  have hproc := hmore (.procedure (kind_sample .kwProc) hrest)
  have hend : after (us ++ vs) Derived [] := ⟨_, by simpa using Grammar.Program.mk hbody hms⟩
  refine ⟨⟨[], hend⟩, fun k hk => ?_⟩
  simp only [List.mem_cons, List.not_mem_nil, or_false] at hk
  rcases hk with rfl | rfl | rfl
  · exact ⟨sample .kwFun, _, rfl, hfun⟩
  · exact ⟨sample .kwProc, _, rfl, hproc⟩
  · exact hend

theorem reports_program (hs : Clean s) (hn : s.ahead.length < n) :
    Reports m Derived (programWithin n) (programWithin m) s := by
  refine .expect (by decide) hs ⟨_, _, .mk body_sample .nil⟩ ?_
  rintro t s₁ rfl hs₁ ht
  refine .bind (reads_body (by decide) n ht) hs₁ (reports_body ht (by decide) hs₁
    (by simp at hn; omega) (by omega) fun us c hc =>
      ⟨[], _, by simpa using Grammar.Program.mk hc .nil⟩) ?_
  rintro us ⟨ds, ss⟩ s₂ rfl hs₂ hbody
  refine .bind (reads_methods n) hs₂ (reports_methods hs₂ (by simp at hn; omega) (by omega)
    fun vs ms hms => ⟨[], _, by simpa using Grammar.Program.mk hbody hms⟩) ?_
  rintro vs ms s₃ rfl hs₃ hms
  refine .sees (fun _ => .pure _) fun _ => .unexpected ?_
  simpa [after_after] using leads_programEnd hbody hms

/-- One place of a failure is right for all bounds. The places that are right for one bound each might
differ, and the farthest of them has all the others before it. -/
theorem exists_failure {e : ParseError} {s₁ : TokenStream} (hs : Clean s)
    (h : program s = .error e s₁) :
    ∃ us s₀, s = us ++ s₀ ∧ e.found? = some s₀.head ∧ Leads Derived us e.expected ∧
      ∀ m s₀', Alike m us s₀ s₀' → ∃ s₁', programWithin m (us ++ s₀') = .error (.rejected e) s₁' := by
  obtain ⟨stop, hstop, hrejected⟩ := exists_stop_of_program h
  have hplace : ∀ m, ∃ us s₀, s = us ++ s₀ ∧ e.found? = some s₀.head ∧ Leads Derived us e.expected ∧
      ∀ s₀', Alike m us s₀ s₀' → ∃ s₁', programWithin m (us ++ s₀') = .error (.rejected e) s₁' := by
    intro m
    obtain ⟨e', us, s₀, hstop', hplace⟩ := (reports_program (m := m) hs (Nat.lt_succ_self _)).error hstop
    obtain rfl := hrejected e' hstop'
    exact ⟨us, s₀, hplace⟩
  choose us s₀ hstream hfound hleads htransfer using hplace
  let m₀ := Function.argmin fun m => (s₀ m).ahead.length
  refine ⟨us m₀, s₀ m₀, hstream m₀, hfound m₀, hleads m₀, fun m s₀' hs₀' => ?_⟩
  have hle : (s₀ m₀).ahead.length ≤ (s₀ m).ahead.length := 
    Function.argmin_le (fun m => (s₀ m).ahead.length) m
  obtain ⟨vs, hus, hs₀⟩ := exists_append_of_length_le ((hstream m).symm.trans (hstream m₀)) hle
  rw [hus] at hs₀' ⊢
  rw [append_append]
  exact htransfer m (vs ++ s₀') (hs₀ ▸ hs₀'.first)

end Parser

open TokenStream Grammar TokenLanguage

variable {ts us rest : List Token} {t : Token}

/-- The token list has a program. -/
def Accepted (ts : List Token) : Prop := ∃ p, Program.ofTokens ts = .ok p

theorem accepted_iff : Accepted ts ↔ ∃ p s, Parser.program (.ofTokens ts) = .ok p s := by
  unfold Accepted Program.ofTokens
  cases Parser.program (.ofTokens ts) <;> simp

theorem exists_program_eq_error {e : ParseError} (h : Program.ofTokens ts = .error e) :
    ∃ s, Parser.program (.ofTokens ts) = .error e s := by
  unfold Program.ofTokens at h
  split at h
  · cases h
  · next s heq =>
    cases h
    exact ⟨s, heq⟩

theorem kind_endOf (ts : List Token) : (endOf ts).kind = .eof := by
  unfold endOf
  split
  · next t ht => simpa using List.find?_some ht
  · rfl

/-- What is derived is read to its end. -/
theorem accepted_of_program {p : Program} (h : Grammar.Program ts p) : Accepted ts := by
  obtain ⟨last, hstream, hlast⟩ := @ofTokens_append ts [] (noEof_program h) (by simp)
  rw [List.append_nil] at hstream
  have hread := Parser.programWithin_eq_ok (s := ⟨[], last⟩) h (Nat.le_succ _) hlast
  have happend : ts ++ (⟨[], last⟩ : TokenStream) = ⟨ts, last⟩ :=
    congrArg (TokenStream.mk · last) (List.append_nil ts)
  rw [happend] at hread
  exact accepted_iff.2 ⟨p, _, by rw [hstream]; exact program_eq_ok.2 hread⟩

/-! ### Streams of token lists -/

theorem noEof_ahead (ts : List Token) : NoEof (TokenStream.ofTokens ts).ahead := fun _ ht => by
  simpa using List.mem_takeWhile_imp ht

theorem ofTokens_of_noEof (hts : NoEof ts) : TokenStream.ofTokens ts = ⟨ts, endOf ts⟩ :=
  congrArg (TokenStream.mk · _) (List.takeWhile_eq_self_iff.2 (by simpa [NoEof] using hts))

theorem ofTokens_cons_eof (ht : t.kind = .eof) : TokenStream.ofTokens (t :: rest) = ⟨[], t⟩ := by
  simp [TokenStream.ofTokens, endOf, ht]

theorem head_ofTokens_cons : (TokenStream.ofTokens (t :: rest)).head = t := by
  by_cases ht : t.kind = .eof
  · rw [ofTokens_cons_eof ht]
    rfl
  · simp [TokenStream.ofTokens, head, ht]

/-- A list that is not empty has its own end, whatever comes before it. -/
theorem ofTokens_append_cons (hus : NoEof us) :
    TokenStream.ofTokens (us ++ t :: rest) = us ++ TokenStream.ofTokens (t :: rest) := by
  have hnone : us.find? (fun t => t.kind = .eof) = none := by simpa [NoEof] using hus
  have hend : endOf (us ++ t :: rest) = endOf (t :: rest) := by
    simp only [endOf, List.find?_append, hnone, Option.none_or, List.getLast?_append,
      List.getLast?_cons, Option.some_or]
  show TokenStream.mk _ _ = ⟨us ++ _, _⟩
  rw [hend, List.takeWhile_append_of_pos (by simpa [NoEof] using hus)]
  rfl

/-- The tokens of a stream are the first ones of the list, and its end of file comes next. -/
theorem exists_terminated_eq (ts : List Token) :
    ∃ ws, terminated ts = (TokenStream.ofTokens ts).ahead ++ (TokenStream.ofTokens ts).last :: ws := by
  cases hfind : ts.find? fun t => t.kind = .eof with
  | none =>
    have hts : NoEof ts := by simpa [NoEof] using hfind
    have hlast : ts.getLast?.map Token.kind ≠ some .eof := by
      rw [ne_eq, Option.map_eq_some_iff]
      rintro ⟨t, ht, hkind⟩
      exact hts t (List.mem_of_getLast? ht) hkind
    refine ⟨[], ?_⟩
    rw [ofTokens_of_noEof hts, terminated, if_neg hlast]
    simp only [endOf, hfind]
  | some t =>
    obtain ⟨ht, us, rest, rfl, hus⟩ := List.find?_eq_some_iff_append.1 hfind
    have hno : NoEof us := by simpa [NoEof] using hus
    rw [ofTokens_append_cons hno, ofTokens_cons_eof (by simpa using ht)]
    unfold terminated
    split
    · exact ⟨rest, by simp⟩
    · exact ⟨rest ++ [_], by simp; rfl⟩

/-- A place in a stream is an index of the list. -/
theorem getElem?_terminated {s : TokenStream} (h : TokenStream.ofTokens ts = us ++ s) :
    ts.take us.length = us ∧ (terminated ts)[us.length]? = some s.head := by
  have hahead : ts.takeWhile (fun t => t.kind ≠ .eof) = us ++ s.ahead := congrArg ahead h
  constructor
  · have hsplit : us ++ s.ahead ++ ts.dropWhile (fun t => t.kind ≠ .eof) = ts := by
      rw [← hahead, List.takeWhile_append_dropWhile]
    rw [← hsplit, List.append_assoc, List.take_left]
  · obtain ⟨ws, hws⟩ := exists_terminated_eq ts
    rw [hws, h, ahead_append, List.append_assoc, List.getElem?_append_right (Nat.le_refl _),
      Nat.sub_self]
    cases hs : s.ahead <;> simp [head, hs]

theorem clean_ofTokens
    (hdigits : ∀ t ∈ ts, t.kind = .intLiteral → t.lexeme.toList.all Char.isDigit) :
    Clean (.ofTokens ts) :=
  ⟨kind_endOf ts, fun t ht => hdigits t ((List.takeWhile_sublist _).mem ht)⟩

theorem accepted_iff_derived (hs : Clean (.ofTokens ts)) :
    Accepted ts ↔ Parser.Derived (TokenStream.ofTokens ts).ahead :=
  accepted_iff.trans (exists_congr fun _ => program_eq_ok_iff (noEof_ahead ts) hs)

/-- Where the end of file comes next, it makes no difference to leave out all that follows. -/
theorem accepted_of_eof {s : TokenStream} (hs : Clean (.ofTokens ts))
    (hstream : TokenStream.ofTokens ts = us ++ s) (heof : s.head.kind = .eof) (h : Accepted us) :
    Accepted ts := by
  have hno : NoEof (us ++ s.ahead) := by
    rw [← ahead_append, ← hstream]
    exact noEof_ahead ts
  have hnil : s.ahead = [] := by
    cases hcons : s.ahead with
    | nil => rfl
    | cons t rest =>
      have ht : s.head = t := by simp [head, hcons]
      exact absurd (ht ▸ heof) (hno t (by simp [hcons]))
  have hus : TokenStream.ofTokens us = ⟨us, endOf us⟩ := ofTokens_of_noEof (noEof_append.1 hno).1
  have hclean : Clean (.ofTokens us) := by
    refine ⟨kind_endOf us, fun t ht => hs.digits t ?_⟩
    rw [hus] at ht
    simpa [hstream, hnil] using ht
  rw [accepted_iff_derived hclean, hus] at h
  rw [accepted_iff_derived hs, hstream, ahead_append, hnil, List.append_nil]
  exact h

theorem ParseError.location_of_found? {e : ParseError} (h : e.found? = some t) :
    e.location = t.location := by
  cases e with
  | lexical _ => cases h
  | unexpected _ _ | literalOutOfRange _ _ =>
    cases h
    rfl

/-- The token that is found is the first with which no accepted list goes on, and each kind that is
expected is one with which some accepted list does. -/
theorem syntax_error_earliest {e : ParseError}
    (hdigits : ∀ t ∈ ts, t.kind = .intLiteral → t.lexeme.toList.all Char.isDigit)
    (h : Program.ofTokens ts = .error e) :
    ∃ i t, (terminated ts)[i]? = some t ∧ e.found? = some t ∧ e.location = t.location ∧
      (∃ rest, Accepted (ts.take i ++ rest)) ∧
      (∀ rest, ¬ Accepted (ts.take i ++ t :: rest)) ∧
      (t.kind = .eof → ¬ Accepted (ts.take i)) ∧
      ∀ k ∈ e.expected, if k = .eof then Accepted (ts.take i)
        else ∃ u rest, u.kind = k ∧ Accepted (ts.take i ++ u :: rest) := by
  have hs := clean_ofTokens hdigits
  obtain ⟨s₁, hprogram⟩ := exists_program_eq_error h
  obtain ⟨us, s₀, hstream, hfound, hleads, hfails⟩ := Parser.exists_failure hs hprogram
  have hno : NoEof us := (noEof_append.1 (ahead_append ▸ hstream ▸ noEof_ahead ts)).1
  obtain ⟨htake, hindex⟩ := getElem?_terminated hstream
  refine ⟨us.length, s₀.head, hindex, hfound, ParseError.location_of_found? hfound, ?_⟩
  rw [htake]
  refine ⟨?_, fun rest haccepted => ?_, fun heof haccepted => ?_, fun k hk => ?_⟩
  · obtain ⟨rest, p, hp⟩ := hleads.viable
    exact ⟨rest, accepted_of_program hp⟩
  · obtain ⟨p, s₂, hok⟩ := accepted_iff.1 haccepted
    rw [ofTokens_append_cons hno] at hok
    obtain ⟨s₃, herror⟩ := hfails _ (.ofTokens (s₀.head :: rest)) ⟨kind_endOf _, head_ofTokens_cons,
      by rw [← List.length_append, ← ahead_append]; exact Nat.lt_succ_self _⟩
    cases (program_eq_ok.1 hok).symm.trans herror
  · obtain ⟨p, hp⟩ := accepted_of_eof hs hstream heof haccepted
    cases h.symm.trans hp
  · have hnext := hleads.expected k hk
    split
    · next heq =>
      rw [if_pos heq] at hnext
      obtain ⟨p, hp⟩ := hnext
      exact accepted_of_program hp
    · next hne =>
      rw [if_neg hne] at hnext
      obtain ⟨u, rest, hu, p, hp⟩ := hnext
      exact ⟨u, rest, hu, accepted_of_program hp⟩

/-- The tokens of `BEGIN PRINT 7; END PROC f() { } }`. -/
def strayBrace : List Token :=
  [⟨.kwBegin, "BEGIN", ⟨1, 1⟩⟩, ⟨.kwPrint, "PRINT", ⟨1, 7⟩⟩, ⟨.intLiteral, "7", ⟨1, 13⟩⟩,
    ⟨.semicolon, ";", ⟨1, 14⟩⟩, ⟨.kwEnd, "END", ⟨1, 16⟩⟩, ⟨.kwProc, "PROC", ⟨1, 20⟩⟩,
    ⟨.ident, "f", ⟨1, 25⟩⟩, ⟨.lparen, "(", ⟨1, 26⟩⟩, ⟨.rparen, ")", ⟨1, 27⟩⟩,
    ⟨.lbrace, "\x7b", ⟨1, 29⟩⟩, ⟨.rbrace, "\x7d", ⟨1, 31⟩⟩, ⟨.rbrace, "\x7d", ⟨1, 33⟩⟩]

/-- The tokens before the second `}` are a program, and another method may follow them. -/
theorem syntax_error_earliest_strayBrace :
    Program.ofTokens strayBrace =
        .error (.unexpected ⟨.rbrace, "\x7d", ⟨1, 33⟩⟩ [.kwFun, .kwProc, .eof]) ∧
      (∀ rest, ¬ Accepted (strayBrace.take 11 ++ ⟨.rbrace, "\x7d", ⟨1, 33⟩⟩ :: rest)) ∧
      Accepted (strayBrace.take 11) ∧
      ∃ u rest, u.kind = .kwFun ∧ Accepted (strayBrace.take 11 ++ u :: rest) := by
  have hread : Program.ofTokens strayBrace =
      .error (.unexpected ⟨.rbrace, "\x7d", ⟨1, 33⟩⟩ [.kwFun, .kwProc, .eof]) := rfl
  obtain ⟨i, t, hi, hfound, -, -, hnone, -, hexpected⟩ :=
    @syntax_error_earliest strayBrace _ (by decide) hread
  obtain rfl : ⟨.rbrace, "\x7d", ⟨1, 33⟩⟩ = t := Option.some.inj hfound
  have hindex : ∀ j < (terminated strayBrace).length,
      (terminated strayBrace)[j]? = some ⟨.rbrace, "\x7d", ⟨1, 33⟩⟩ → j = 11 := by decide
  obtain rfl := hindex i (List.getElem?_eq_some_iff.1 hi).1 hi
  exact ⟨hread, hnone, hexpected .eof (by simp [ParseError.expected]),
    hexpected .kwFun (by simp [ParseError.expected])⟩

end Lpl
