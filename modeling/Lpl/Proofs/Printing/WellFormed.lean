import Lpl.Proofs.Lexing.Tokenize
import Lpl.Proofs.Parsing.Program

/-!
# The trees that a source text can have

`Program.WellFormed` says which trees are trees of a text: names are words and no keywords, an element
has an index and a new array a size, only variables and elements have a `.length`, and an `IF` with an
`ELSE` does not leave that `ELSE` to an `IF` inside it. The other way round, every tree that is read from
a text is one of them (`parse_wellFormed`).

What is read is derived, so it is enough that derived trees are well formed, if the identifiers among the
tokens are names. The proof goes by the number of tokens, as the phrases inside a phrase are shorter.
-/

namespace Lpl

open Lexing (IsWord HasKind Split)

/-! ## Well-formed trees -/

/-- `[A-Za-z][A-Za-z0-9_]*`, but no keyword. -/
structure IsName (x : String) : Prop where
  word : IsWord x.toList
  not_keyword : ∀ k ∈ Token.Kind.keywords, k.spelling? ≠ some x

/-- The expressions that have a `.length`: variables and elements. -/
def Expr.isReference : Expr → Bool
  | .var .. | .index .. => true
  | _ => false

/-- Expressions that a text can have. -/
inductive Expr.WellFormed : Expr → Prop
  | int {v l} : WellFormed (.int v l)
  | null {l} : WellFormed (.null l)
  | var {x l} : IsName x → WellFormed (.var x l)
  | unary {op e l} : WellFormed e → WellFormed (.unary op e l)
  | binary {op a b l} : WellFormed a → WellFormed b → WellFormed (.binary op a b l)
  | index {x es l} : IsName x → es ≠ [] → (∀ e ∈ es, WellFormed e) → WellFormed (.index x es l)
  | length {a l} : a.isReference → WellFormed a → WellFormed (.length a l)
  | new {es n l} : es ≠ [] → (∀ e ∈ es, WellFormed e) → WellFormed (.new es n l)
  | call {f es l} : IsName f → (∀ e ∈ es, WellFormed e) → WellFormed (.call f es l)

/-- Statements that a text can have. -/
inductive Stmt.WellFormed : Stmt → Prop
  | assign {x e l} : IsName x → e.WellFormed → WellFormed (.assign x e l)
  | assignAt {x es e l} : IsName x → es ≠ [] → (∀ i ∈ es, Expr.WellFormed i) → e.WellFormed →
      WellFormed (.assignAt x es e l)
  | ifThen {c s l} : c.WellFormed → WellFormed s → WellFormed (.ifThen c s l)
  | ifElse {c s t l} : c.WellFormed → WellFormed s → s.takesElse = false → WellFormed t →
      WellFormed (.ifElse c s t l)
  | whileDo {c s l} : c.WellFormed → WellFormed s → WellFormed (.whileDo c s l)
  | switch {e cs d l} : e.WellFormed → (∀ c ∈ cs, WellFormed c.body) → WellFormed d →
      WellFormed (.switch e cs d l)
  | block {ss l} : (∀ s ∈ ss, WellFormed s) → WellFormed (.block ss l)
  | print {k e l} : e.WellFormed → WellFormed (.print k e l)
  | newline {l} : WellFormed (.newline l)
  | ret {v l} : (∀ e ∈ v, Expr.WellFormed e) → WellFormed (.ret v l)
  | call {f es l} : IsName f → (∀ e ∈ es, Expr.WellFormed e) → WellFormed (.call f es l)

/-- Methods that a text can have. -/
structure Method.WellFormed (m : Method) : Prop where
  name : IsName m.name
  params : ∀ d ∈ m.params, IsName d.name
  locals : ∀ d ∈ m.locals, IsName d.name
  body : ∀ s ∈ m.body, s.WellFormed

/-- Programs that a text can have. -/
structure Program.WellFormed (p : Program) : Prop where
  globals : ∀ d ∈ p.globals, IsName d.name
  body : ∀ s ∈ p.body, s.WellFormed
  methods : ∀ m ∈ p.methods, m.WellFormed

namespace Grammar

/-! ## Phrases inside a phrase -/

section Lists

variable {α : Type} {P : Phrase α} {Q : α → Prop} {us : List Token} {a : α} {as : List α}

theorem Many.forall_mem (h : Many P us as) (hP : ∀ vs a, vs <:+: us → P vs a → Q a) :
    ∀ a ∈ as, Q a := by
  induction h with
  | nil => simp
  | @cons us vs a as ha _ ih =>
    simp only [List.mem_cons, forall_eq_or_imp]
    refine ⟨hP us a (List.prefix_append us vs).isInfix ha, ih fun ws b hws => ?_⟩
    exact hP ws b (hws.trans (List.suffix_append us vs).isInfix)

theorem Separated.forall_mem (h : Separated P us as) (hP : ∀ vs a, vs <:+: us → P vs a → Q a) :
    ∀ a ∈ as, Q a := by
  induction h with
  | @one us a ha => simpa using hP us a List.infix_rfl ha
  | @more us c vs a as ha _ _ ih =>
    simp only [List.mem_cons, forall_eq_or_imp]
    refine ⟨hP us a (List.prefix_append us (c :: vs)).isInfix ha, ih fun ws b hws => ?_⟩
    exact hP ws b (hws.trans ⟨us ++ [c], [], by simp⟩)

theorem Listed.forall_mem (h : Listed P us as) (hP : ∀ vs a, vs <:+: us → P vs a → Q a) :
    ∀ a ∈ as, Q a := by
  cases h with
  | none => simp
  | some h => exact h.forall_mem hP

theorem Bracketed.inside (h : Bracketed P us a) : ∃ vs, vs <:+: us ∧ P vs a := by
  obtain @⟨l, r, vs, _, _, h, _⟩ := h
  exact ⟨vs, ⟨[l], [r], rfl⟩, h⟩

theorem Parenthesized.inside (h : Parenthesized P us a) : ∃ vs, vs <:+: us ∧ P vs a := by
  obtain @⟨l, r, vs, _, _, h, _⟩ := h
  exact ⟨vs, ⟨[l], [r], rfl⟩, h⟩

end Lists

/-! ## Derived trees -/

/-- At most `n` tokens, with identifiers that are names. -/
structure Fits (n : Nat) (ts : List Token) : Prop where
  length_le : ts.length ≤ n
  named : ∀ t ∈ ts, t.kind = .ident → IsName t.lexeme

section Fits

variable {n : Nat} {us vs : List Token}

theorem Fits.part (h : Fits n us) (hvs : vs <:+: us) : Fits n vs :=
  ⟨Nat.le_trans hvs.length_le h.length_le, fun t ht => h.named t (hvs.subset ht)⟩

/-- Behind the first token there is one token less. -/
theorem Fits.inner {t : Token} (h : Fits (n + 1) (t :: us)) (hvs : vs <:+: us) : Fits n vs := by
  have htail : Fits n us :=
    ⟨by simpa using h.length_le, fun u hu => h.named u (List.mem_cons_of_mem t hu)⟩
  exact htail.part hvs

theorem Fits.name {x : Token} (h : Fits n (x :: us)) (hx : x.kind = .ident) : IsName x.lexeme :=
  h.named x List.mem_cons_self hx

end Fits

/-- The phrases of at most `n` tokens derive trees with the property `W`. -/
def Derives {α : Type} (n : Nat) (P : Phrase α) (W : α → Prop) : Prop :=
  ∀ ⦃us a⦄, Fits n us → P us a → W a

theorem reference_wellFormed {x : Token} {es : List Expr} (hx : IsName x.lexeme)
    (hes : ∀ e ∈ es, e.WellFormed) : (reference x es).WellFormed := by
  cases es with
  | nil => exact .var hx
  | cons e es => exact .index hx (List.cons_ne_nil _ _) hes

theorem isReference_reference (x : Token) (es : List Expr) : (reference x es).isReference := by
  cases es <;> rfl

section Expressions

variable {n : Nat} (hexp : Derives n Exp Expr.WellFormed)

include hexp

theorem derives_bracketed : Derives n (Bracketed Exp) Expr.WellFormed := by
  intro us e hfits h
  obtain ⟨vs, hvs, h⟩ := h.inside
  exact hexp (hfits.part hvs) h

theorem derives_parenthesized : Derives n (Parenthesized Exp) Expr.WellFormed := by
  intro us e hfits h
  obtain ⟨vs, hvs, h⟩ := h.inside
  exact hexp (hfits.part hvs) h

theorem derives_indices : Derives n (Many (Bracketed Exp)) (∀ e ∈ ·, Expr.WellFormed e) := by
  intro us es hfits h
  exact h.forall_mem fun vs e hvs he => derives_bracketed hexp (hfits.part hvs) he

theorem derives_arguments :
    Derives n (Parenthesized (Listed Exp)) (∀ e ∈ ·, Expr.WellFormed e) := by
  intro us es hfits h
  obtain ⟨vs, hvs, h⟩ := h.inside
  exact h.forall_mem fun ws e hws he => hexp (hfits.part (hws.trans hvs)) he

end Expressions

theorem derives_exp_of_simple {n : Nat} (hsimple : Derives n SimpleExp Expr.WellFormed) :
    Derives n Exp Expr.WellFormed := by
  intro us e hfits h
  cases h with
  | simple h => exact hsimple hfits h
  | @binary us o vs op a b ha _ hb =>
    have hleft := hsimple (hfits.part (List.prefix_append us (o :: vs)).isInfix) ha
    have hright := hsimple (hfits.part ⟨us ++ [o], [], by simp⟩) hb
    exact .binary hleft hright

theorem derives_simpleExp (n : Nat) : Derives n SimpleExp Expr.WellFormed := by
  induction n with
  | zero =>
    intro us e hfits h
    obtain ⟨t, us, rfl, -⟩ := starts_simpleExp h
    exact absurd hfits.length_le (by simp)
  | succ n ih =>
    have hexp := derives_exp_of_simple ih
    intro us e hfits h
    cases h with
    | @call x us es hx hes =>
      exact .call (hfits.name hx)
        (derives_arguments hexp (hfits.inner List.infix_rfl) hes)
    | @named x us es hx hes =>
      exact reference_wellFormed (hfits.name hx)
        (derives_indices hexp (hfits.inner List.infix_rfl) hes)
    | @length x d k us es hx hes _ _ =>
      have hindices := derives_indices hexp
        (hfits.inner (List.prefix_append us [d, k]).isInfix) hes
      exact .length (isReference_reference x es) (reference_wellFormed (hfits.name hx) hindices)
    | int _ => exact .int
    | @neg m t us e _ _ he =>
      exact .unary (ih (hfits.inner List.infix_rfl) he)
    | @not b us e _ he =>
      exact .unary (ih (hfits.inner List.infix_rfl) he)
    | @new w i us vs ws e es k _ _ he hes _ =>
      have hsize := derives_bracketed hexp
        (hfits.inner ⟨[i], vs ++ ws, by simp⟩) he
      have hsizes := derives_indices hexp
        (hfits.inner ⟨i :: us, ws, by simp⟩) hes
      refine .new (List.cons_ne_nil _ _) ?_
      simp only [List.mem_cons, forall_eq_or_imp]
      exact ⟨hsize, hsizes⟩
    | null _ => exact .null
    | parens h =>
      obtain @⟨l, r, us, _, _, h, _⟩ := h
      exact hexp (hfits.inner (List.prefix_append us [r]).isInfix) h

theorem derives_exp (n : Nat) : Derives n Exp Expr.WellFormed :=
  derives_exp_of_simple (derives_simpleExp n)

theorem assignment_wellFormed {x : Token} {e : Expr} {es : List Expr} (hx : IsName x.lexeme)
    (hes : ∀ i ∈ es, i.WellFormed) (he : e.WellFormed) : (assignment x e es).WellFormed := by
  cases es with
  | nil => exact .assign hx he
  | cons i es => exact .assignAt hx (List.cons_ne_nil _ _) hes he

theorem derives_stm (n : Nat) : Derives n Stm Stmt.WellFormed := by
  induction n with
  | zero =>
    intro us s hfits h
    obtain ⟨t, us, rfl, -⟩ := starts_stm h
    exact absurd hfits.length_le (by simp)
  | succ n ih =>
    have hexp := derives_exp n
    intro us s hfits h
    cases h with
    | @call x z us es hx hes _ =>
      have hargs := derives_arguments hexp (hfits.inner (List.prefix_append us [z]).isInfix) hes
      exact .call (hfits.name hx) hargs
    | @assign x q z us vs es e hx hes _ he _ =>
      have hindices := derives_indices hexp (hfits.inner ⟨[], q :: vs ++ [z], by simp⟩) hes
      have hvalue := hexp (hfits.inner ⟨us ++ [q], [z], by simp⟩) he
      exact assignment_wellFormed (hfits.name hx) hindices hvalue
    | @ifThen i us vs c s _ hc hs =>
      have hcondition := derives_parenthesized hexp
        (hfits.inner (List.prefix_append us vs).isInfix) hc
      have hbranch := ih (hfits.inner (List.suffix_append us vs).isInfix) hs
      exact .ifThen hcondition hbranch
    | @ifElse i us vs j ws c s t _ hc hs hends _ ht =>
      have hcondition := derives_parenthesized hexp
        (hfits.inner ⟨[], vs ++ j :: ws, by simp⟩) hc
      have hthen := ih (hfits.inner ⟨us, j :: ws, by simp⟩) hs
      have helse := ih (hfits.inner ⟨us ++ vs ++ [j], [], by simp⟩) ht
      exact .ifElse hcondition hthen hends helse
    | @whileDo w us vs c s _ hc hs =>
      have hcondition := derives_parenthesized hexp
        (hfits.inner (List.prefix_append us vs).isInfix) hc
      have hbody := ih (hfits.inner (List.suffix_append us vs).isInfix) hs
      exact .whileDo hcondition hbody
    | @switch w l d k r us vs ws e cs s _ he _ hcs _ _ hs _ =>
      have hsubject := derives_parenthesized hexp
        (hfits.inner ⟨[], l :: vs ++ d :: k :: ws ++ [r], by simp⟩) he
      have hfitsCases : Fits n vs := hfits.inner ⟨us ++ [l], d :: k :: ws ++ [r], by simp⟩
      have hcases : ∀ c ∈ cs, c.body.WellFormed := by
        refine hcs.forall_mem fun vs' c hvs' hc => ?_
        obtain @⟨c, us', d', vs'', v, s', _, _, _, hs'⟩ := hc
        exact ih (hfitsCases.part (List.IsInfix.trans ⟨c :: us' ++ [d'], [], by simp⟩ hvs')) hs'
      have hdefault := ih (hfits.inner ⟨us ++ l :: vs ++ [d, k], [r], by simp⟩) hs
      exact .switch hsubject hcases hdefault
    | @block l r us ss _ hss _ =>
      have hfitsBody : Fits n us := hfits.inner (List.prefix_append us [r]).isInfix
      exact .block (hss.forall_mem fun vs s hvs hs => ih (hfitsBody.part hvs) hs)
    | @print w z us k e _ he _ =>
      exact .print (hexp (hfits.inner (List.prefix_append us [z]).isInfix) he)
    | newline _ _ => exact .newline
    | ret _ _ => exact .ret (by simp)
    | @retValue w z us e _ he _ =>
      have hvalue := hexp (hfits.inner (List.prefix_append us [z]).isInfix) he
      exact .ret (by simpa using hvalue)

/-! ## Derived programs -/

variable {n : Nat}

theorem derives_typedName : Derives n TypedName (IsName ·.name) := by
  intro us d hfits h
  obtain @⟨t, x, us, ty, _, hx⟩ := h
  exact hfits.named x (by simp) hx

theorem derives_varDecl : Derives n VarDecl (IsName ·.name) := by
  intro us d hfits h
  obtain @⟨z, us, d, hd, _⟩ := h
  exact derives_typedName (hfits.part (List.prefix_append us [z]).isInfix) hd

theorem derives_formals : Derives n (Parenthesized (Listed TypedName)) (∀ d ∈ ·, IsName d.name) := by
  intro us ds hfits h
  obtain ⟨vs, hvs, h⟩ := h.inside
  exact h.forall_mem fun ws d hws hd => derives_typedName (hfits.part (hws.trans hvs)) hd

theorem derives_body {opening closing : Token.Kind} : Derives n (Body opening closing)
    fun b => (∀ d ∈ b.1, IsName d.name) ∧ ∀ s ∈ b.2, s.WellFormed := by
  intro us b hfits h
  obtain @⟨l, r, us, vs, ds, ss, _, hds, hss, _⟩ := h
  have hdecls : Fits n us := hfits.part ⟨[l], vs ++ [r], by simp⟩
  have hstmts : Fits n vs := hfits.part ⟨l :: us, [r], by simp⟩
  exact ⟨hds.forall_mem fun ws d hws hd => derives_varDecl (hdecls.part hws) hd,
    hss.forall_mem fun ws s hws hs => derives_stm n (hstmts.part hws) hs⟩

theorem derives_methodRest {type : Option VarType} {l : Location} :
    Derives n (MethodRest type l) Method.WellFormed := by
  intro us m hfits h
  obtain @⟨x, us, vs, ps, ds, ss, hx, hps, hbody⟩ := h
  have hparams := derives_formals (hfits.part ⟨[x], vs, by simp⟩) hps
  have hbody := derives_body (hfits.part ⟨x :: us, [], by simp⟩) hbody
  exact ⟨hfits.name hx, hparams, hbody.1, hbody.2⟩

theorem derives_methodDef : Derives n MethodDef Method.WellFormed := by
  intro us m hfits h
  cases h with
  | @function f us vs ty m _ _ hm =>
    exact derives_methodRest (hfits.part (List.suffix_append (f :: us) vs).isInfix) hm
  | @procedure f us m _ hm =>
    exact derives_methodRest (hfits.part (List.suffix_cons f us).isInfix) hm

theorem derives_program : Derives n Program Program.WellFormed := by
  intro us p hfits h
  obtain @⟨us, vs, ds, ss, ms, hbody, hms⟩ := h
  have hbody := derives_body (hfits.part (List.prefix_append us vs).isInfix) hbody
  have hfitsMethods : Fits n vs := hfits.part (List.suffix_append us vs).isInfix
  have hmethods := hms.forall_mem fun ws m hws hm => derives_methodDef (hfitsMethods.part hws) hm
  exact ⟨hbody.1, hbody.2, hmethods⟩

end Grammar

/-! ## Programs that are read -/

theorem Lexing.Split.hasKind {before text : List Char} {ts : List Token} (h : Split before text ts) :
    ∀ t ∈ ts, t.kind ≠ .eof → HasKind t.lexeme.toList t.kind := by
  induction h with
  | last _ => simp [Token.endOfFile]
  | @cons before g w rest t ts _ hw hlexeme _ _ ih =>
    simp only [List.mem_cons, forall_eq_or_imp]
    refine ⟨fun _ => ?_, ih⟩
    rw [hlexeme, String.toList_ofList]
    exact hw.kind

theorem Lexing.HasKind.isName {x : String} (h : HasKind x.toList .ident) : IsName x := by
  cases h with
  | keyword hk _ => exact absurd hk (by decide)
  | ident hword hkeyword => exact ⟨hword, by simpa using hkeyword⟩
  | symbol hk _ => exact absurd hk (by decide)

theorem Lexing.HasKind.isNumber {w : List Char} (h : HasKind w .intLiteral) : Lexing.IsNumber w := by
  cases h with
  | number h => exact h
  | keyword hk _ => exact absurd hk (by decide)
  | symbol hk _ => exact absurd hk (by decide)

/-- The program of a text is the one that the grammar derives from its tokens. -/
theorem parse_eq_ok_iff {source : String} {ts : List Token} {l : Location} {p : Program}
    (h : Split [] source.toList (ts ++ [Token.endOfFile l])) :
    Program.parse source = .ok p ↔ Grammar.Program ts p := by
  have hts : ∀ t ∈ ts, t.kind ≠ .eof := by
    obtain ⟨init, heq, hinit⟩ := h.endOfFile
    rwa [(List.append_inj' heq rfl).1]
  have hend : ∀ t ∈ [Token.endOfFile l].head?, t.kind = .eof := by simp [Token.endOfFile]
  obtain ⟨last, hstream, hlast⟩ := ofTokens_append hts hend
  have hclean : TokenStream.Clean ⟨ts, last⟩ := by
    refine ⟨hlast, fun t ht hkind => ?_⟩
    have hlexeme := h.hasKind t (by simp [ht]) (by simp [hkind])
    rw [hkind] at hlexeme
    simpa using hlexeme.isNumber.2
  have htokens : TokenStream.ofSource source = .ok ⟨ts, last⟩ := by
    rw [TokenStream.ofSource, Lexing.tokenize_eq_ok_iff_split.2 h, ← hstream]
  rw [← program_eq_ok_iff hts hclean, Program.parse, htokens]
  simp only [bind, Except.bind]
  cases Parser.program ⟨ts, last⟩ with
  | ok q s => simp
  | error e s => simp

theorem parse_wellFormed {source : String} {p : Program} (h : Program.parse source = .ok p) :
    p.WellFormed := by
  obtain ⟨ts, hsource⟩ : ∃ ts, tokenize source = .ok ts := by
    cases htokens : tokenize source with
    | ok ts => exact ⟨ts, rfl⟩
    | error e => simp [Program.parse, TokenStream.ofSource, htokens, bind, Except.bind] at h
  have hsplit := Lexing.tokenize_eq_ok_iff_split.1 hsource
  obtain ⟨init, rfl, hinit⟩ := hsplit.endOfFile
  have hderived := (parse_eq_ok_iff hsplit).1 h
  refine Grammar.derives_program ⟨Nat.le_refl _, fun t ht hkind => ?_⟩ hderived
  have hlexeme := hsplit.hasKind t (by simp [ht]) (hinit t ht)
  rw [hkind] at hlexeme
  exact hlexeme.isName

end Lpl
