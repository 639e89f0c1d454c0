import Lpl.Proofs.Blame.Sites

/-!
# Compile errors are at the tokens they are about

**Theorem (`compile_error_located`).** If a source text is a program but does not compile, and not for its
layout, then the error has the location of a token of the text, and that token is the one at fault: the
undeclared name, the start of the declaration or of the method whose name is taken, the `CASE` of a value
that the switch has already, or a `RETURN` of the main body.

An error comes from a declaration or from a use with the location of the tree (`Program.compile_eq_error`),
and these stand in the tokens of the text (`Grammar.program_parts`).
-/

namespace Lpl

open Grammar

/-- An error of the program `p` with tokens `ts` is about the token `t`, and has its location. -/
inductive Blames (s : Settings) (p : Program) (ts : List Token) (t : Token) : CompileError → Prop
  | undeclaredVar {u} : [t, u] <:+: ts → t.kind = .ident → u.kind ≠ .lparen →
      ¬ Table.Declares p.globals t.lexeme → Blames s p ts t (.undeclared .var t.lexeme (some t.location))
  | undeclaredMethod {u} : [t, u] <:+: ts → t.kind = .ident → u.kind = .lparen →
      (∀ m ∈ p.methods, m.name ≠ t.lexeme) →
      Blames s p ts t (.undeclared .method t.lexeme (some t.location))
  | redeclared {us d region} : t :: us <:+: ts → TypedName (t :: us) d → t.kind = .kwInt →
      p.Redeclares s d region → Blames s p ts t (.duplicate d.name region (some t.location))
  | sameMethod {us m} : t :: us <:+: ts → MethodDef (t :: us) m → t.kind ∈ [.kwFun, .kwProc] →
      Repeated (fun m => m.name) [] p.methods m →
      Blames s p ts t (.duplicate m.name .methods (some t.location))
  | sameCase {us e cs d l vs c} : us <:+: ts → Stm us (.switch e cs d l) → t :: vs <:+: us →
      Case Stm (t :: vs) c → t.kind = .kwCase → Repeated SwitchCase.value [] cs c →
      Blames s p ts t (.duplicate ("case " ++ toString c.value) .switchCases (some t.location))
  | mainReturn {us z vs} : ts = us ++ z :: vs → Body .kwBegin .kwEnd (us ++ [z]) (p.globals, p.body) →
      z.kind = .kwEnd → t ∈ us → t.kind = .kwReturn →
      Blames s p ts t (.misplaced .returnOutsideMethod (some t.location))

section Blames

variable {s : Settings} {p : Program} {ts : List Token} {t : Token} {e : CompileError}

theorem Blames.location (h : Blames s p ts t e) : e.location? = some t.location := by
  cases h <;> rfl

theorem Blames.mem (h : Blames s p ts t e) : t ∈ ts := by
  cases h with
  | undeclaredVar h | undeclaredMethod h | redeclared h | sameMethod h => exact h.subset (by simp)
  | sameCase h _ hcase => exact h.subset (hcase.subset (by simp))
  | mainReturn h _ _ ht => simp [h, ht]

/-- Tokens behind the program change nothing. -/
theorem Blames.append {us : List Token} (h : Blames s p ts t e) : Blames s p (ts ++ us) t e := by
  have hts : ts <:+: ts ++ us := (List.prefix_append ts us).isInfix
  cases h with
  | undeclaredVar h ht hu hx => exact .undeclaredVar (h.trans hts) ht hu hx
  | undeclaredMethod h ht hu hf => exact .undeclaredMethod (h.trans hts) ht hu hf
  | redeclared h hd ht hp => exact .redeclared (h.trans hts) hd ht hp
  | sameMethod h hm ht hp => exact .sameMethod (h.trans hts) hm ht hp
  | sameCase h hs hc hcase ht hcs => exact .sameCase (h.trans hts) hs hc hcase ht hcs
  | @mainReturn vs z ws h hbody hz ht hkind =>
    have hsplit : ts ++ us = vs ++ z :: (ws ++ us) := by simp [h]
    exact .mainReturn hsplit hbody hz ht hkind

end Blames

/-! ## The token of an error -/

theorem typedName_head {us : List Token} {d : Decl} (h : TypedName us d) :
    ∃ t vs, us = t :: vs ∧ t.kind = .kwInt ∧ d.location = t.location := by
  obtain @⟨t, x, vs, ty, hty, _⟩ := h
  obtain @⟨_, _, _, ht, _⟩ := hty
  exact ⟨t, vs ++ [x], rfl, ht, rfl⟩

theorem methodDef_head {us : List Token} {m : Method} (h : MethodDef us m) :
    ∃ t vs, us = t :: vs ∧ t.kind ∈ [.kwFun, .kwProc] ∧ m.location = t.location := by
  cases h with
  | @function f us vs ty m hf _ hrest =>
    obtain ⟨_, _, _⟩ := hrest
    exact ⟨f, _, rfl, by simp [hf], rfl⟩
  | @procedure f us m hf hrest =>
    obtain ⟨_, _, _⟩ := hrest
    exact ⟨f, _, rfl, by simp [hf], rfl⟩

/-- The cases of a switch stand in its tokens. -/
theorem switch_cases {us : List Token} {e : Expr} {cs : List SwitchCase} {d : Stmt} {l : Location}
    (h : Stm us (.switch e cs d l)) : ∀ c ∈ cs, Derived (Case Stm) us c := by
  generalize hw : Stmt.switch e cs d l = w at h
  cases h with
  | @switch w l d k r us vs ws e cs s _ _ _ hcs _ _ _ _ =>
    cases hw
    intro c hc
    have hderived : Derived (Case Stm) vs c := hcs.forall_mem (fun us c hus hc => ⟨us, hus, hc⟩) c hc
    exact hderived.mono ⟨w :: us ++ [l], d :: k :: ws ++ [r], by simp⟩
  | @assign x q z us vs es e _ _ _ _ _ => cases es <;> cases hw
  | _ => cases hw

section Program

variable {s : Settings} {p : Program} {ts : List Token} {t : Table}

theorem not_declares_of_find?_eq_none {active : Option Signature} {x : String}
    (ht : WellDeclared s p t) (h : Scope.find? ⟨t, active⟩ x = none) :
    ¬ Table.Declares p.globals x := by
  intro hx
  have hglobal : ∃ v, Scope.global? t x = some v := exists_global?_iff.2 (ht.globals ▸ hx)
  obtain ⟨v, hv⟩ := hglobal
  have hfind : Scope.global? t x = none := (Option.or_eq_none_iff.1 h).2
  rw [hfind] at hv
  cases hv

theorem not_mem_of_method?_eq_none {f : String} (ht : WellDeclared s p t) (h : t.method? f = none) :
    ∀ m ∈ p.methods, m.name ≠ f := by
  rintro m hm rfl
  rw [method?_of_mem ht hm] at h
  cases h

/-- A use that is out of order is blamed on its token. -/
theorem blames_of_use (ht : WellDeclared s p t) {u : Use} {active : Option Signature} {e : CompileError}
    (hu : u.StandsIn ts) (he : u.Faults ⟨t, active⟩ e)
    (hret : active = none → ∃ us z vs, ts = us ++ z :: vs ∧ z.kind = .kwEnd ∧
      Body .kwBegin .kwEnd (us ++ [z]) (p.globals, p.body) ∧ u.StandsIn us) :
    ∃ w, Blames s p ts w e := by
  cases he with
  | var hfind =>
    obtain @⟨x, y, h, hx, hy⟩ | _ := hu
    exact ⟨x, .undeclaredVar h hx hy (not_declares_of_find?_eq_none ht hfind)⟩
  | call hfind =>
    obtain _ | @⟨x, y, h, hx, hy⟩ := hu
    exact ⟨x, .undeclaredMethod h hx hy (not_mem_of_method?_eq_none ht hfind)⟩
  | ret hactive =>
    obtain ⟨us, z, vs, hts, hz, hbody, hu⟩ := hret hactive
    cases hu with
    | @ret w hmem hw => exact ⟨w, .mainReturn hts hbody hz hmem hw⟩
  | @cases cs c hc =>
    cases hu with
    | @cases us e _ d l hus hs =>
      obtain ⟨vs, hvs, hcase⟩ := switch_cases hs c hc.mem
      obtain @⟨w, vs, k, ws, v, body, hw, hv, hk, hbody⟩ := hcase
      exact ⟨w, .sameCase hus hs hvs (.mk hw hv hk hbody) hw hc⟩

theorem derived_of_redeclares (h : Grammar.Program ts p) {d : Decl} {region : CompileError.Region}
    (hd : p.Redeclares s d region) : Derived TypedName ts d := by
  obtain ⟨-, -, -, -, -, -, hglobals, -, hmethods⟩ := program_parts h
  cases hd with
  | global hd => exact hglobals d hd.mem
  | @within m d region hm hd =>
    obtain ⟨us, hus, hm⟩ := hmethods m hm
    have hmem : d ∈ m.params ++ m.locals := by
      cases hd with
      | param hd => exact List.mem_append_left _ hd.mem
      | localVar hd => exact List.mem_append_right _ hd.mem
      | alreadyParam hd => exact List.mem_append_right _ hd
      | hidesGlobal _ hd => exact hd
    exact ((method_parts hm).1 d hmem).mono hus

/-- Every error of a derived program, but for its layout, is blamed on a token. -/
theorem exists_blames (h : Grammar.Program ts p) {e : CompileError}
    (herror : (p.compile s).result = .error e) (he : ∀ f, e ≠ .layout f) :
    ∃ w, Blames s p ts w e := by
  obtain ⟨us, z, vs, hts, hz, hbody, -, huses, hmethods⟩ := program_parts h
  obtain ⟨f, hf⟩ | ⟨d, region, hd, rfl⟩ | ⟨m, hm, rfl⟩ | ⟨t, ht, hfault⟩ :=
    Program.compile_eq_error herror
  · exact absurd hf (he f)
  · obtain ⟨ws, hws, htyped⟩ := derived_of_redeclares h hd
    obtain ⟨w, ws, rfl, hw, hlocation⟩ := typedName_head htyped
    exact ⟨w, hlocation ▸ .redeclared hws htyped hw hd⟩
  · obtain ⟨ws, hws, hdef⟩ := hmethods m hm.mem
    obtain ⟨w, ws, rfl, hw, hlocation⟩ := methodDef_head hdef
    exact ⟨w, hlocation ▸ .sameMethod hws hdef hw hm⟩
  · cases hfault with
    | @main u e hu he =>
      have hstands := huses u hu
      refine blames_of_use ht (hstands.mono ⟨[], z :: vs, by simp [hts]⟩) he fun _ => ?_
      exact ⟨us, z, vs, hts, hz, hbody, hstands⟩
    | @within m u e hm hu he =>
      obtain ⟨ws, hws, hdef⟩ := hmethods m hm
      have hstands := (method_parts hdef).2 u hu
      exact blames_of_use ht (hstands.mono hws) he (by simp)

end Program

/-! ## Source texts -/

/-- A text with a compile error is a program. -/
theorem parse_of_compile_error {s : Settings} {source : String} {e : CompileError}
    (h : (compile s source).result = .error (.compile e)) :
    ∃ p, Program.parse source = .ok p ∧ (p.compile s).result = .error e := by
  rw [result_compile_parse] at h
  cases hparse : Program.parse source with
  | error e' =>
    rw [hparse] at h
    cases h
  | ok p =>
    rw [hparse] at h
    have h : (p.compile s).result.mapError Failure.compile = .error (.compile e) := h
    refine ⟨p, rfl, ?_⟩
    cases hresult : (p.compile s).result with
    | ok code =>
      rw [hresult] at h
      cases h
    | error e' =>
      rw [hresult] at h
      cases h
      rfl

/-- A compile error, other than one of the layout, has the location of the token that it is about. -/
theorem compile_error_located {s : Settings} {source : String} {e : CompileError}
    (h : (compile s source).result = .error (.compile e)) (he : ∀ f, e ≠ .layout f) :
    ∃ ts p t, tokenize source = .ok ts ∧ Program.parse source = .ok p ∧ t ∈ ts ∧
      e.location? = some t.location ∧ Blames s p ts t e := by
  obtain ⟨p, hp, herror⟩ := parse_of_compile_error h
  obtain ⟨ts, hts⟩ : ∃ ts, tokenize source = .ok ts := by
    cases htokens : tokenize source with
    | ok ts => exact ⟨ts, rfl⟩
    | error e' => simp [Program.parse, TokenStream.ofSource, htokens, bind, Except.bind] at hp
  have hsplit := Lexing.tokenize_eq_ok_iff_split.1 hts
  obtain ⟨init, rfl, -⟩ := hsplit.endOfFile
  obtain ⟨t, ht⟩ := exists_blames ((parse_eq_ok_iff hsplit).1 hp) herror he
  exact ⟨_, p, t, hts, hp, ht.append.mem, ht.location, ht.append⟩

/-- The argument `y` of a call is not declared, and the call is inside an assignment on another line. -/
def undeclaredArgument : String := "BEGIN int x; x = 1 +\n  f(y); END FUN int f(int a) \x7b \x7d"

theorem compile_error_located_undeclaredArgument :
    (compile {} undeclaredArgument).result = .error (.compile (.undeclared .var "y" (some ⟨2, 5⟩))) ∧
      ∃ ts p t, tokenize undeclaredArgument = .ok ts ∧ Program.parse undeclaredArgument = .ok p ∧
        t ∈ ts ∧ some ⟨2, 5⟩ = some t.location ∧
        Blames {} p ts t (.undeclared .var "y" (some ⟨2, 5⟩)) := by
  have herror : (compile {} undeclaredArgument).error? =
      some (.compile (.undeclared .var "y" (some ⟨2, 5⟩))) := by
    decide +kernel
  rw [Logged.error?_eq_some] at herror
  exact ⟨herror, compile_error_located herror (by simp)⟩

end Lpl
