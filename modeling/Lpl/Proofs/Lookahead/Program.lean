import Lpl.Proofs.Errors.Program
import Lpl.Proofs.Lookahead.Stmt

/-!
# What settles a program

The declarations, the methods and the program around them. A program is settled by its tokens and the
end of file behind them. One that breaks off is settled by the tokens before the place and by the kind
of the next one, as far as it was looked for.
-/

namespace Lpl

namespace Parser

open TokenStream ParseError
open Token (Kind)

variable {n m b i j : Nat} {s : TokenStream} {G : Kind → Prop}

/-! ## Before a token that starts nothing -/

theorem typedName_of_ne (h : s.head.kind ∉ [Kind.kwInt]) : typedName n s = unexpected [.kwInt] s := by
  rw [typedName, bind_peek]
  exact bind_error (bind_error (expect_of_ne (by simpa using h)))

theorem methods_of_not_mem (h : s.head.kind ∉ [Kind.kwFun, Kind.kwProc]) :
    methods (n + 1) s = .ok [] s := by
  rw [methods, bind_peek]
  cases hk : s.head.kind with
  | kwFun | kwProc =>
    rw [hk] at h
    exact absurd h (by decide)
  | _ => rfl

/-! ## Declarations -/

theorem settles_identifier (hs : s.last.kind = .eof) (hG : ∀ k, G k → k ∈ [Kind.lbracket]) :
    Settles b G (fun _ _ _ => False) identifier identifier s := by
  refine .expect (by decide) hs (fun _ k hk => ?_) fun _ _ _ _ _ => .pure _ fun _ => id
  obtain rfl := List.mem_singleton.1 (hG k hk)
  decide

theorem settles_varType (hs : s.last.kind = .eof) (hn : s.ahead.length < n + 1) (hm : b ≤ m + 1)
    (hG : s.head.kind ≠ .kwInt → ∀ k, G k → k ∈ [Kind.kwInt]) :
    Settles b G (fun _ _ k => k ∈ [Kind.lbracket]) (varType n) (varType m) s := by
  refine .expect (by decide) hs (fun hne k hk => List.mem_append_left _ (hG hne k hk)) ?_
  rintro t s₁ rfl hs₁ -
  exact .map (settles_emptyBrackets hs₁ (by simpa using hn) (by omega)) fun _ _ _ => id

/-- Where no type stands there is no name. -/
theorem settles_typedName (hs : s.last.kind = .eof) (hn : s.ahead.length < n + 1) (hm : b ≤ m + 1)
    (hG : s.head.kind ≠ .kwInt → ∀ k, G k → k ∈ [Kind.kwInt]) :
    Settles b G (fun _ _ _ => False) (typedName n) (typedName m) s := by
  by_cases hint : s.head.kind = .kwInt
  · refine .peek (.bind (settles_varType hs hn hm fun hne => absurd hint hne) ?_)
    rintro us ty s₁ rfl -
    exact .map (settles_identifier hs fun _ => id) fun _ _ _ => id
  · exact .unstarted (by simpa using hint) typedName_of_ne typedName_of_ne (by decide)
      fun k hk => List.mem_append_left _ (hG hint k hk)

theorem settles_declarations (hs : s.last.kind = .eof) (hi : s.ahead.length < i) (hj : b ≤ j) :
    Settles b (fun _ => False) (fun _ _ k => k ∈ [Kind.kwInt]) (declarations i) (declarations j) s := by
  induction i generalizing b j s with
  | zero =>
    exact absurd hi (Nat.not_lt_zero _)
  | succ i ih =>
    refine .of_succ hj ?_
    intro j hj
    refine .sees (fun hint => ?_) fun _ => .pure _ (by simp)
    refine .closed (settles_typedName hs hi hj fun hne => absurd hint hne) (by decide) hs
      (fun _ _ _ _ => False.elim) ?_
    rintro us d z s₁ rfl hs₁ -
    exact .map (ih hs₁ (by simp at hi; omega) (by omega)) fun _ _ _ => id

theorem settles_typedNames (hs : s.last.kind = .eof) (hi : s.ahead.length < i) (hj : b ≤ j)
    (hG : s.head.kind ≠ .kwInt → ∀ k, G k → k ∈ [Kind.kwInt]) :
    Settles b G (fun _ _ k => k ∈ [Kind.comma]) (typedNames i) (typedNames j) s := by
  induction i generalizing b j s G with
  | zero =>
    exact absurd hi (Nat.not_lt_zero _)
  | succ i ih =>
    refine .of_succ hj ?_
    intro j hj
    refine .bind (settles_typedName hs hi hj hG) ?_
    rintro us d s₁ rfl -
    refine .accept (by decide) hs (fun c s₂ heq hs₂ _ => ?_) fun _ => .pure _ (by simp)
    subst heq
    exact .map (ih hs₂ (by simp at hi; omega) (by omega) fun _ _ => False.elim) fun _ _ _ => id

theorem settles_formals (hs : s.last.kind = .eof) (hn : s.ahead.length < n) (hm : b ≤ m) :
    Settles b (fun _ => False) (fun _ _ k => k ∈ [Kind.kwInt, Kind.comma]) (formals n) (formals m) s := by
  refine .sees (fun hint => ?_) fun _ => .pure _ (by simp)
  refine (settles_typedNames hs hn hm fun hne => absurd hint hne).weaken (fun _ => id) ?_
  simp

/-! ## Bodies and methods -/

theorem settles_body {stop : Kind} (hstop : stop ≠ .eof)
    (helse : .kwElse ∈ passedOver (statementsUntil.alternatives stop false))
    (hs : s.last.kind = .eof) (hn : s.ahead.length < n) (hm : b ≤ m) :
    Settles b (fun _ => False) (fun _ _ _ => False) (body stop n) (body stop m) s := by
  refine .bind (settles_declarations hs hn hm) ?_
  rintro us ds s₁ rfl -
  refine .closed (settles_statementsUntil (settlesStm n) hs (by simp at hn; omega) (Nat.le_refl n)
    (by omega) (by omega) helse ?_) hstop hs (fun _ _ hne _ hend => absurd hend hne) ?_
  · intro k hk
    obtain rfl := List.mem_singleton.1 hk
    exact List.mem_append_left _ (by simp [statementsUntil.alternatives])
  · exact fun _ _ _ _ _ _ _ => .pure _ fun _ => False.elim

theorem settles_methodRest {type : Option VarType} {l : Location} (hs : s.last.kind = .eof)
    (hn : s.ahead.length < n) (hm : b ≤ m) (hG : ∀ k, G k → k ∈ [Kind.lbracket]) :
    Settles b G (fun _ _ _ => False) (methodRest n type l) (methodRest m type l) s := by
  refine .bind (settles_identifier hs hG) ?_
  rintro us x s₁ rfl -
  refine .expect (by decide) hs (fun _ _ => False.elim) ?_
  rintro p s₂ rfl hs₂ -
  refine .closed (settles_formals hs₂ (by simp at hn; omega) (by omega)) (by decide) hs₂
    (fun _ _ _ => by decide) ?_
  rintro vs ps q s₃ rfl hs₃ -
  refine .expect (by decide) hs₃ (fun _ _ => False.elim) ?_
  rintro k s₄ rfl hs₄ -
  exact .bind (settles_body (by decide) (by decide) hs₄ (by simp at hn; omega) (by omega))
    fun _ _ _ _ _ => .pure _ fun _ => id

theorem settles_methods (hs : s.last.kind = .eof) (hi : s.ahead.length < i) (hj : b ≤ j) :
    Settles b (fun _ => False) (fun _ _ k => k ∈ [Kind.kwFun, Kind.kwProc]) (methods i) (methods j) s := by
  induction i generalizing b j s with
  | zero =>
    exact absurd hi (Nat.not_lt_zero _)
  | succ i ih =>
    refine .of_succ hj ?_
    intro j hj
    by_cases hstart : s.head.kind ∉ [Kind.kwFun, Kind.kwProc]
    · exact .idle hstart methods_of_not_mem methods_of_not_mem (.pure [] (by simp))
    rw [methods, methods]
    refine .peek ?_
    cases hk : s.head.kind with
    | kwFun =>
      obtain ⟨f, s₁, rfl, hs₁, -⟩ := exists_cons_of_ends hs (by decide) hk
      refine .next (.bind (settles_varType hs₁ (by simp at hi; omega) (by omega) fun _ _ => False.elim) ?_)
      rintro us ty s₂ rfl -
      refine .bind (settles_methodRest hs₁ (by simp at hi; omega) (by omega) fun _ => id) ?_
      rintro vs c s₃ rfl -
      exact .map (ih hs₁ (by simp at hi; omega) (by omega)) fun _ _ _ => id
    | kwProc =>
      obtain ⟨f, s₁, rfl, hs₁, -⟩ := exists_cons_of_ends hs (by decide) hk
      refine .next (.bind (settles_methodRest hs₁ (by simp at hi; omega) (by omega) fun _ => False.elim) ?_)
      rintro us c s₂ rfl -
      exact .map (ih hs₁ (by simp at hi; omega) (by omega)) fun _ _ _ => id
    | _ =>
      rw [hk] at hstart
      exact absurd (by decide) hstart

/-! ## Programs -/

theorem settles_program (hs : s.last.kind = .eof) (hn : s.ahead.length < n) :
    Settles m (fun _ => False) (fun _ _ _ => True) (programWithin n) (programWithin m) s := by
  refine .expect (by decide) hs (fun _ _ => False.elim) ?_
  rintro t s₁ rfl hs₁ -
  refine .bind (settles_body (by decide) (by decide) hs₁ (by simp at hn; omega) (by omega)) ?_
  rintro us ⟨ds, ss⟩ s₂ rfl -
  refine .bind (settles_methods hs₁ (by simp at hn; omega) (by omega)) ?_
  rintro vs ms s₃ rfl -
  refine .sees (fun _ => .pure _ fun _ => id) fun _ => .unexpected (by decide) ?_
  rintro k (hk | rfl)
  · revert k
    decide
  · decide

/-- A program that is not read is not read because of its tokens. -/
theorem program_eq_error {e : ParseError} {s₁ : TokenStream} (hs : s.last.kind = .eof) :
    program s = .error e s₁ ↔ programWithin (s.ahead.length + 1) s = .error (.rejected e) s₁ := by
  refine ⟨fun h => ?_, program_of_rejected⟩
  obtain ⟨stop, hstop, hrejected⟩ := exists_stop_of_program h
  obtain ⟨e', -, -, rfl, -⟩ := (settles_program (m := 0) hs (Nat.lt_succ_self _)).blame hstop
  rw [hstop, hrejected e' rfl]

end Parser

end Lpl
