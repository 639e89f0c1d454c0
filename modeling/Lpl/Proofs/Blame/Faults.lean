import Lpl.Proofs.Acceptance

/-!
# What compile errors come from

An error of a compilation comes from a declaration that is not the only one, or from one of the *uses* in
a body: a variable, a call, a `RETURN` or the cases of a switch. The error has the location that the tree
has there: where it is raised its location is known already, so that no construct around it attaches its
own.

The errors of an emitter are those of its parts: `FailsBy F x` says that all errors of `x` are among `F`,
and is kept by every way to build an emitter.
-/

namespace Lpl

/-! ## Repeated items -/

section Repeated

variable {α β : Type} {key : α → β} {earlier earlier' : List β} {xs : List α} {x y : α}

/-- An `x` in `xs` has the key of one before it, or one of the `earlier` keys. -/
def Repeated (key : α → β) (earlier : List β) (xs : List α) (x : α) : Prop :=
  ∃ as bs, xs = as ++ x :: bs ∧ key x ∈ earlier ++ as.map key

theorem Repeated.head (h : key x ∈ earlier) : Repeated key earlier (x :: xs) x :=
  ⟨[], xs, rfl, by simpa using h⟩

theorem Repeated.tail (h : Repeated key earlier' xs x)
    (hkeys : ∀ k ∈ earlier', k = key y ∨ k ∈ earlier) : Repeated key earlier (y :: xs) x := by
  obtain ⟨as, bs, rfl, hx⟩ := h
  refine ⟨y :: as, bs, rfl, ?_⟩
  rw [List.map_cons, List.mem_append, List.mem_cons]
  rcases List.mem_append.1 hx with hx | hx
  · rcases hkeys _ hx with hx | hx
    · exact .inr (.inl hx)
    · exact .inl hx
  · exact .inr (.inr hx)

theorem Repeated.mem (h : Repeated key earlier xs x) : x ∈ xs := by
  obtain ⟨as, bs, rfl, -⟩ := h
  simp

end Repeated

/-! ## Declarations -/

/-- A parameter or local of a method that may not have its name, and what it is called in an error. -/
inductive Signature.Redeclares (globals : List Decl) (policy : Shadowing) (m : Signature) :
    Decl → CompileError.Region → Prop
  | param {d} : Repeated Decl.name [] m.params d → Redeclares globals policy m d (.params m.name)
  | localVar {d} : Repeated Decl.name [] m.locals d → Redeclares globals policy m d (.locals m.name)
  | alreadyParam {d} : d ∈ m.locals → Table.Declares m.params d.name →
      Redeclares globals policy m d (.alreadyParam m.name)
  | hidesGlobal {d} : policy = .reject → d ∈ m.params ++ m.locals → Table.Declares globals d.name →
      Redeclares globals policy m d (.hidesGlobal m.name)

/-- A variable of a program that may not have its name. -/
inductive Program.Redeclares (s : Settings) (p : Program) : Decl → CompileError.Region → Prop
  | global {d} : Repeated Decl.name [] p.globals d → Redeclares s p d .globals
  | within {m d region} : m ∈ p.methods →
      m.toSignature.Redeclares p.globals s.shadowing d region → Redeclares s p d region

namespace Logged

variable {ε α β : Type}

theorem bind_eq_error {x : Logged ε α} {f : α → Logged ε β} {e : ε} :
    (x >>= f).result = .error e ↔
      x.result = .error e ∨ ∃ a, x.result = .ok a ∧ (f a).result = .error e := by
  show (Logged.bind x f).result = _ ↔ _
  unfold Logged.bind
  obtain ⟨result, events⟩ := x
  cases result <;> simp

end Logged

namespace Table

variable {w : Nat} {policy : Shadowing} {e : CompileError}

theorem checkGlobals_eq_error {earlier ds : List Decl} (h : checkGlobals w earlier ds = .error e) :
    (∃ f, e = .layout f) ∨ ∃ d, Repeated Decl.name (earlier.map Decl.name) ds d ∧
      e = .duplicate d.name .globals (some d.location) := by
  induction ds generalizing earlier with
  | nil => cases h
  | cons d ds ih =>
    rw [checkGlobals] at h
    split at h
    next hd =>
      cases h
      exact .inr ⟨d, .head hd, rfl⟩
    next =>
      split at h
      · rcases ih h with hlayout | ⟨d', hd', he⟩
        · exact .inl hlayout
        · exact .inr ⟨d', hd'.tail (by simp [or_comm]), he⟩
      · cases h
        exact .inl ⟨_, rfl⟩

theorem checkSlots_eq_error {region : CompileError.Region} {earlier ds : List Decl}
    (h : checkSlots w region earlier ds = .error e) :
    (∃ f, e = .layout f) ∨ ∃ d, Repeated Decl.name (earlier.map Decl.name) ds d ∧
      e = .duplicate d.name region (some d.location) := by
  induction ds generalizing earlier with
  | nil => cases h
  | cons d ds ih =>
    rw [checkSlots] at h
    split at h
    next =>
      cases h
      exact .inl ⟨_, rfl⟩
    next =>
      split at h
      next hd =>
        cases h
        exact .inr ⟨d, .head hd, rfl⟩
      next =>
        rcases ih h with hlayout | ⟨d', hd', he⟩
        · exact .inl hlayout
        · exact .inr ⟨d', hd'.tail (by simp [or_comm]), he⟩

theorem checkMethod_eq_error {globals : List Decl} {m : Signature}
    (h : (checkMethod w globals policy m).result = .error e) :
    (∃ f, e = .layout f) ∨ ∃ d region, m.Redeclares globals policy d region ∧
      e = .duplicate d.name region (some d.location) := by
  unfold checkMethod at h
  rcases Logged.bind_eq_error.1 h with h | ⟨-, -, h⟩
  · rcases checkSlots_eq_error h with hlayout | ⟨d, hd, he⟩
    · exact .inl hlayout
    · exact .inr ⟨d, _, .param hd, he⟩
  rcases Logged.bind_eq_error.1 h with h | ⟨-, -, h⟩
  · rcases checkSlots_eq_error h with hlayout | ⟨d, hd, he⟩
    · exact .inl hlayout
    · exact .inr ⟨d, _, .localVar hd, he⟩
  cases hfind : m.locals.find? (fun d => Declares m.params d.name) with
  | some d =>
    rw [hfind] at h
    cases h
    have hd : Declares m.params d.name := by simpa using List.find?_some hfind
    exact .inr ⟨d, _, .alreadyParam (List.mem_of_find?_eq_some hfind) hd, rfl⟩
  | none =>
    rw [hfind] at h
    cases policy with
    | allow => cases h
    | warn => cases h
    | reject =>
      cases hshadowing : shadowing globals m with
      | nil =>
        rw [hshadowing] at h
        cases h
      | cons d ds =>
        rw [hshadowing] at h
        cases h
        have hmem : d ∈ shadowing globals m := by simp [hshadowing]
        obtain ⟨hd, hglobal⟩ := List.mem_filter.1 hmem
        exact .inr ⟨d, _, .hidesGlobal rfl hd (by simpa using hglobal), rfl⟩

theorem checkMethods_eq_error {globals : List Decl} {earlier : List String} {ms : List Method}
    (h : (checkMethods w globals policy earlier ms).result = .error e) :
    (∃ f, e = .layout f) ∨
      (∃ m ∈ ms, ∃ d region, m.toSignature.Redeclares globals policy d region ∧
        e = .duplicate d.name region (some d.location)) ∨
      ∃ m, Repeated (fun m => m.name) earlier ms m ∧
        e = .duplicate m.name .methods (some m.location) := by
  induction ms generalizing earlier with
  | nil => cases h
  | cons m ms ih =>
    rw [checkMethods] at h
    split at h
    next hm =>
      cases h
      exact .inr (.inr ⟨m, .head hm, rfl⟩)
    next =>
      rcases Logged.bind_eq_error.1 h with h | ⟨-, -, h⟩
      · exact (checkMethod_eq_error h).imp_right fun h => .inl ⟨m, List.mem_cons_self, h⟩
      · rcases ih h with h | ⟨m', hm', h⟩ | ⟨m', hm', he⟩
        · exact .inl h
        · exact .inr (.inl ⟨m', List.mem_cons_of_mem m hm', h⟩)
        · refine .inr (.inr ⟨m', hm'.tail ?_, he⟩)
          simp [or_comm]

/-- Building a table fails for the layout, for a variable or for a method. -/
theorem ofProgram_eq_error {s : Settings} {p : Program} (h : (ofProgram s p).result = .error e) :
    (∃ f, e = .layout f) ∨
      (∃ d region, p.Redeclares s d region ∧ e = .duplicate d.name region (some d.location)) ∨
      ∃ m, Repeated (fun m => m.name) [] p.methods m ∧
        e = .duplicate m.name .methods (some m.location) := by
  unfold ofProgram at h
  split at h
  next =>
    rcases Logged.bind_eq_error.1 h with h | ⟨-, -, h⟩
    · rcases checkGlobals_eq_error h with hlayout | ⟨d, hd, he⟩
      · exact .inl hlayout
      · exact .inr (.inl ⟨d, _, .global hd, he⟩)
    rcases Logged.bind_eq_error.1 h with h | ⟨-, -, h⟩
    · rcases checkMethods_eq_error h with h | ⟨m, hm, d, region, hd, he⟩ | h
      · exact .inl h
      · exact .inr (.inl ⟨d, region, .within hm hd, he⟩)
      · exact .inr (.inr h)
    · cases h
  next =>
    cases h
    exact .inl ⟨_, rfl⟩

end Table

/-! ## Uses -/

/-- Something in a body that may be out of order, and where. -/
inductive Use where
  /-- A variable, or the variable of an array element, that is read or assigned. -/
  | var (name : String) (location : Location)
  /-- A method that is called. -/
  | call (method : String) (location : Location)
  /-- A `RETURN`. -/
  | ret (location : Location)
  /-- The cases of a switch. -/
  | cases (cs : List SwitchCase)

mutual

/-- The uses in an expression, at any depth. -/
def Expr.uses : Expr → List Use
  | .int .. | .null _ => []
  | .var x l => [.var x l]
  | .unary _ e _ | .length e _ => e.uses
  | .binary _ a b _ => a.uses ++ b.uses
  | .index x es l => .var x l :: Expr.usesAll es
  | .new es _ _ => Expr.usesAll es
  | .call f es l => .call f l :: Expr.usesAll es

/-- The uses in expressions. -/
def Expr.usesAll : List Expr → List Use
  | [] => []
  | e :: es => e.uses ++ Expr.usesAll es

end

mutual

/-- The uses in a statement, at any depth. -/
def Stmt.uses : Stmt → List Use
  | .assign x e l => .var x l :: e.uses
  | .assignAt x es e l => .var x l :: (Expr.usesAll es ++ e.uses)
  | .ifThen c s _ | .whileDo c s _ => c.uses ++ s.uses
  | .ifElse c s t _ => c.uses ++ (s.uses ++ t.uses)
  | .switch e cs d _ => .cases cs :: (SwitchCase.usesAll cs ++ (e.uses ++ d.uses))
  | .block ss _ => Stmt.usesAll ss
  | .print _ e _ => e.uses
  | .newline _ => []
  | .ret none l => [.ret l]
  | .ret (some e) l => .ret l :: e.uses
  | .call f es l => .call f l :: Expr.usesAll es

/-- The uses in statements. -/
def Stmt.usesAll : List Stmt → List Use
  | [] => []
  | s :: ss => s.uses ++ Stmt.usesAll ss

/-- The uses in the arms of a switch. -/
def SwitchCase.usesAll : List SwitchCase → List Use
  | [] => []
  | .mk _ s _ :: cs => s.uses ++ SwitchCase.usesAll cs

end

theorem Expr.mem_usesAll {u : Use} {es : List Expr} :
    u ∈ Expr.usesAll es ↔ ∃ e ∈ es, u ∈ e.uses := by
  induction es with
  | nil => simp [Expr.usesAll]
  | cons e es ih => simp [Expr.usesAll, ih]

theorem Stmt.mem_usesAll {u : Use} {ss : List Stmt} :
    u ∈ Stmt.usesAll ss ↔ ∃ s ∈ ss, u ∈ s.uses := by
  induction ss with
  | nil => simp [Stmt.usesAll]
  | cons s ss ih => simp [Stmt.usesAll, ih]

theorem SwitchCase.mem_usesAll {u : Use} {cs : List SwitchCase} :
    u ∈ SwitchCase.usesAll cs ↔ ∃ c ∈ cs, u ∈ c.body.uses := by
  induction cs with
  | nil => simp [SwitchCase.usesAll]
  | cons c cs ih =>
    obtain ⟨v, s, l⟩ := c
    simp [SwitchCase.usesAll, SwitchCase.body, ih]

/-- The error that a use is in a scope where it is out of order. -/
inductive Use.Faults (σ : Scope) : Use → CompileError → Prop
  | var {x l} : σ.find? x = none → Faults σ (.var x l) (.undeclared .var x (some l))
  | call {f l} : σ.table.method? f = none → Faults σ (.call f l) (.undeclared .method f (some l))
  | ret {l} : σ.active = none → Faults σ (.ret l) (.misplaced .returnOutsideMethod (some l))
  | cases {cs c} : Repeated SwitchCase.value [] cs c →
      Faults σ (.cases cs) (.duplicate ("case " ++ toString c.value) .switchCases (some c.location))

/-- Locations that are known stay. -/
theorem Use.Faults.locatedAt {σ : Scope} {u : Use} {e : CompileError} (h : u.Faults σ e)
    (l : Location) : e.locatedAt l = e := by
  cases h <;> rfl

/-! ## Emitters that fail -/

namespace Emitter

variable {α β : Type} {F : CompileError → Prop}

/-- All errors of the emitter are among `F`. -/
def FailsBy (F : CompileError → Prop) (x : Emitter α) : Prop :=
  ∀ ls e, (x.run ls).result = .error e → F e

theorem FailsBy.mono {G : CompileError → Prop} {x : Emitter α} (h : FailsBy F x)
    (hG : ∀ e, F e → G e) : FailsBy G x := fun ls e he => hG e (h ls e he)

theorem FailsBy.bind {x : Emitter α} {f : α → Emitter β} (hx : FailsBy F x)
    (hf : ∀ a, FailsBy F (f a)) : FailsBy F (x >>= f) := by
  intro ls e h
  rw [run_bind] at h
  cases hresult : (x.run ls).result with
  | error e' =>
    rw [hresult] at h
    cases h
    exact hx ls e hresult
  | ok a =>
    rw [hresult] at h
    exact hf a _ e h

theorem failsBy_ofExcept {r : Except CompileError α} (h : ∀ e, r = .error e → F e) :
    FailsBy F (ofExcept r) := fun _ => h

theorem failsBy_pure (a : α) : FailsBy F (pure a) := failsBy_ofExcept (r := .ok a) (by simp)

theorem failsBy_emit (code : Assembly) : FailsBy F (emit code) := by
  intro ls e h
  cases h

theorem failsBy_tell (event : Event) : FailsBy F (tell event) := by
  intro ls e h
  cases h

theorem failsBy_fresh (stem : String) : FailsBy F (fresh stem) := by
  intro ls e h
  cases h

theorem failsBy_scratch (name : String) : FailsBy F (scratch name) := by
  intro ls e h
  cases h

theorem failsBy_scratchWords : FailsBy F scratchWords := by
  intro ls e h
  cases h

theorem FailsBy.locatedAt {x : Emitter α} {l : Location}
    (h : FailsBy (fun e => F (e.locatedAt l)) x) : FailsBy F (locatedAt l x) := by
  intro ls e he
  have he : ((x.run ls).result.mapError (CompileError.locatedAt l)) = .error e := he
  cases hresult : (x.run ls).result with
  | ok a =>
    rw [hresult] at he
    cases he
  | error e' =>
    rw [hresult] at he
    cases he
    exact h ls e' hresult

end Emitter

open Emitter

/-- All errors of the emitter are those of the uses `us` in a scope. -/
def Emitter.FailsAt {α : Type} (σ : Scope) (us : List Use) (x : Emitter α) : Prop :=
  FailsBy (fun e => ∃ u ∈ us, u.Faults σ e) x

section Code

variable {σ : Scope} {us : List Use}

theorem failsAt_address {x : String} {l : Location} (h : .var x l ∈ us) :
    FailsAt σ us (σ.address x l) := by
  refine FailsBy.bind (FailsBy.locatedAt (failsBy_ofExcept fun e he => ?_)) fun _ => failsBy_emit _
  unfold Scope.resolve at he
  split at he
  next => cases he
  next hnone =>
    cases he
    exact ⟨_, h, .var hnone⟩

theorem failsAt_call {f : String} {l : Location} {argc : Nat} {args : Emitter Unit}
    (h : .call f l ∈ us) (hargs : FailsAt σ us args) : FailsAt σ us (σ.call f l argc args) := by
  refine FailsBy.bind (FailsBy.locatedAt (failsBy_ofExcept fun e he => ?_)) fun _ =>
    hargs.bind fun _ => failsBy_emit _
  unfold Table.method at he
  split at he
  next => cases he
  next hnone =>
    cases he
    exact ⟨_, h, .call hnone⟩

mutual

theorem Expr.failsAt : (e : Expr) → e.uses ⊆ us → FailsAt σ us (e.code σ)
  | .int _ _, _ | .null _, _ => failsBy_emit _
  | .var x l, h => (failsAt_address (by simpa [Expr.uses] using h)).bind fun _ => failsBy_emit _
  | .unary .not e _, h => (Expr.failsAt e h).bind fun _ => failsBy_emit _
  | .unary .neg e _, h => (failsBy_emit _).bind fun _ => (Expr.failsAt e h).bind fun _ =>
    failsBy_emit _
  | .binary op a b _, h => by
    obtain ⟨ha, hb⟩ := List.append_subset.1 h
    exact (Expr.failsAt a ha).bind fun _ => (failsBy_emit _).bind fun _ =>
      (Expr.failsAt b hb).bind fun _ => failsBy_emit _
  | .index x es l, h => by
    obtain ⟨hx, hes⟩ := List.cons_subset.1 h
    exact (failsAt_address hx).bind fun _ => (Expr.failsAt_element es hes).bind fun _ =>
      failsBy_emit _
  | .length e _, h => (Expr.failsAt e h).bind fun _ => failsBy_emit _
  | .new es _ _, h => (Expr.failsAt_all es h).bind fun _ => failsBy_emit _
  | .call f es l, h => by
    obtain ⟨hf, hes⟩ := List.cons_subset.1 h
    exact failsAt_call hf (Expr.failsAt_reversed es hes)

theorem Expr.failsAt_all : (es : List Expr) → Expr.usesAll es ⊆ us → FailsAt σ us (Expr.codeAll σ es)
  | [], _ => failsBy_pure ()
  | e :: es, h => by
    obtain ⟨he, hes⟩ := List.append_subset.1 h
    exact (Expr.failsAt e he).bind fun _ => Expr.failsAt_all es hes

theorem Expr.failsAt_reversed :
    (es : List Expr) → Expr.usesAll es ⊆ us → FailsAt σ us (Expr.codeReversed σ es)
  | [], _ => failsBy_pure ()
  | e :: es, h => by
    obtain ⟨he, hes⟩ := List.append_subset.1 h
    exact (Expr.failsAt_reversed es hes).bind fun _ => Expr.failsAt e he

theorem Expr.failsAt_element :
    (es : List Expr) → Expr.usesAll es ⊆ us → FailsAt σ us (Expr.elementAddress σ es)
  | [], _ => failsBy_pure ()
  | e :: es, h => by
    obtain ⟨he, hes⟩ := List.append_subset.1 h
    exact (failsBy_emit _).bind fun _ => (Expr.failsAt e he).bind fun _ =>
      (failsBy_emit _).bind fun _ => Expr.failsAt_element es hes

end

theorem repeated_of_duplicateCase? {earlier : List Int32} {cs : List SwitchCase} {c : SwitchCase}
    (h : duplicateCase? earlier cs = some c) : Repeated SwitchCase.value earlier cs c := by
  induction cs generalizing earlier with
  | nil => cases h
  | cons c' cs ih =>
    rw [duplicateCase?] at h
    split at h
    next hc =>
      cases h
      exact .head hc
    next => exact (ih h).tail (by simp)

theorem failsAt_checkCases {cs : List SwitchCase} (h : .cases cs ∈ us) :
    FailsAt σ us (checkCases cs) := by
  unfold checkCases
  split
  next => exact failsBy_pure ()
  next c hc =>
    refine failsBy_ofExcept fun e he => ?_
    cases he
    exact ⟨_, h, .cases (repeated_of_duplicateCase? hc)⟩

theorem failsAt_caseLabels (cs : List SwitchCase) : FailsAt σ us (caseLabels cs) := by
  induction cs with
  | nil => exact failsBy_pure []
  | cons c cs ih => exact (failsBy_fresh _).bind fun _ => ih.bind fun _ => failsBy_pure _

mutual

theorem Stmt.failsAt : (s : Stmt) → s.uses ⊆ us → FailsAt σ us (s.code σ)
  | .assign x e l, h => by
    obtain ⟨hx, he⟩ := List.cons_subset.1 h
    exact (failsAt_address hx).bind fun _ => (e.failsAt he).bind fun _ => failsBy_emit _
  | .assignAt x es e l, h => by
    obtain ⟨hx, h⟩ := List.cons_subset.1 h
    obtain ⟨hes, he⟩ := List.append_subset.1 h
    exact (failsAt_address hx).bind fun _ => (Expr.failsAt_element es hes).bind fun _ =>
      (e.failsAt he).bind fun _ => failsBy_emit _
  | .ifThen c s _, h => by
    obtain ⟨hc, hs⟩ := List.append_subset.1 h
    exact (c.failsAt hc).bind fun _ => (failsBy_fresh _).bind fun _ => (failsBy_emit _).bind fun _ =>
      (Stmt.failsAt s hs).bind fun _ => failsBy_emit _
  | .ifElse c s t _, h => by
    obtain ⟨hc, h⟩ := List.append_subset.1 h
    obtain ⟨hs, ht⟩ := List.append_subset.1 h
    exact (c.failsAt hc).bind fun _ => (failsBy_fresh _).bind fun _ => (failsBy_fresh _).bind fun _ =>
      (failsBy_emit _).bind fun _ => (Stmt.failsAt s hs).bind fun _ => (failsBy_emit _).bind fun _ =>
      (Stmt.failsAt t ht).bind fun _ => failsBy_emit _
  | .whileDo c s _, h => by
    obtain ⟨hc, hs⟩ := List.append_subset.1 h
    exact (failsBy_fresh _).bind fun _ => (failsBy_fresh _).bind fun _ => (failsBy_emit _).bind fun _ =>
      (c.failsAt hc).bind fun _ => (failsBy_emit _).bind fun _ => (Stmt.failsAt s hs).bind fun _ =>
      failsBy_emit _
  | .switch e cs d _, h => by
    obtain ⟨hduplicate, h⟩ := List.cons_subset.1 h
    obtain ⟨hcs, h⟩ := List.append_subset.1 h
    obtain ⟨he, hd⟩ := List.append_subset.1 h
    exact (failsAt_checkCases hduplicate).bind fun _ => (failsBy_fresh _).bind fun _ =>
      (failsBy_fresh _).bind fun _ => (failsBy_fresh _).bind fun _ =>
      (failsAt_caseLabels cs).bind fun labels => (failsBy_emit _).bind fun _ =>
      (SwitchCase.failsAt_all _ cs labels hcs).bind fun _ => (failsBy_emit _).bind fun _ =>
      (e.failsAt he).bind fun _ => (failsBy_scratch _).bind fun _ => (failsBy_emit _).bind fun _ =>
      (failsBy_emit _).bind fun _ => (Stmt.failsAt d hd).bind fun _ => failsBy_emit _
  | .block ss _, h => Stmt.failsAt_all ss h
  | .print _ e _, h => (e.failsAt h).bind fun _ => failsBy_emit _
  | .newline _, _ => failsBy_emit _
  | .ret v l, h => by
    have hret : .ret l ∈ us := by
      cases v with
      | none => simpa [Stmt.uses] using h
      | some e => exact (List.cons_subset.1 h).1
    cases hm : σ.active with
    | none =>
      simp only [Stmt.code, hm]
      refine failsBy_ofExcept fun e he => ?_
      cases he
      exact ⟨_, hret, .ret hm⟩
    | some m =>
      cases v with
      | some e =>
        simp only [Stmt.code, hm]
        exact (e.failsAt (List.cons_subset.1 h).2).bind fun _ => failsBy_emit _
      | none =>
        simp only [Stmt.code, hm]
        split
        · exact (failsBy_tell _).bind fun _ => (failsBy_emit _).bind fun _ => failsBy_emit _
        · exact (failsBy_emit _).bind fun _ => failsBy_emit _
  | .call f es l, h => by
    obtain ⟨hf, hes⟩ := List.cons_subset.1 h
    exact (failsAt_call hf (Expr.failsAt_reversed es hes)).bind fun _ =>
      (failsBy_scratch _).bind fun _ => failsBy_emit _

theorem Stmt.failsAt_all : (ss : List Stmt) → Stmt.usesAll ss ⊆ us → FailsAt σ us (Stmt.codeAll σ ss)
  | [], _ => failsBy_pure ()
  | s :: ss, h => by
    obtain ⟨hs, hss⟩ := List.append_subset.1 h
    exact (Stmt.failsAt s hs).bind fun _ => Stmt.failsAt_all ss hss

theorem SwitchCase.failsAt_all (done : String) : (cs : List SwitchCase) → (labels : List String) →
    SwitchCase.usesAll cs ⊆ us → FailsAt σ us (SwitchCase.codeAll σ done cs labels)
  | .mk _ s _ :: cs, l :: labels, h => by
    obtain ⟨hs, hcs⟩ := List.append_subset.1 h
    exact (failsBy_emit _).bind fun _ => (Stmt.failsAt s hs).bind fun _ =>
      (failsBy_emit _).bind fun _ => SwitchCase.failsAt_all done cs labels hcs
  | [], _, _ | .mk _ _ _ :: _, [], _ => failsBy_pure ()

end

theorem failsAt_bodyCode {ss : List Stmt} (h : Stmt.usesAll ss ⊆ us) :
    FailsAt σ us (bodyCode σ ss) := by
  induction ss with
  | nil => exact failsBy_pure ()
  | cons s ss ih =>
    obtain ⟨hs, hss⟩ := List.append_subset.1 h
    refine FailsBy.bind (FailsBy.locatedAt ((s.failsAt hs).mono fun e ⟨u, hu, he⟩ => ?_)) fun _ =>
      ih hss
    rw [he.locatedAt]
    exact ⟨u, hu, he⟩

end Code

/-! ## Programs -/

section Program

variable {s : Settings} {p : Program} {t : Table}

/-- A use in a program is out of order, in the main body or in a method. -/
inductive Program.Faults (p : Program) (t : Table) : CompileError → Prop
  | main {u e} : u ∈ Stmt.usesAll p.body → u.Faults ⟨t, none⟩ e → Faults p t e
  | within {m u e} : m ∈ p.methods → u ∈ Stmt.usesAll m.body →
      u.Faults ⟨t, some m.toSignature⟩ e → Faults p t e

theorem Method.failsBy (ht : WellDeclared s p t) {m : Method} (hm : m ∈ p.methods) :
    FailsBy (p.Faults t) (m.code ⟨t, none⟩) := by
  have hfind : t.method? m.name = some m.toSignature := method?_of_mem ht hm
  have hmethod : t.method m.name = .ok m.toSignature := by rw [Table.method, hfind]
  have henter : Scope.enter ⟨t, none⟩ m.name = .ok m.toSignature := by rw [Scope.enter, hmethod]
  unfold Method.code
  rw [henter]
  intro ls e he
  refine (FailsBy.bind (failsBy_tell _) fun _ => (failsBy_emit _).bind fun _ =>
    ((failsAt_bodyCode (List.Subset.refl _)).mono fun e ⟨u, hu, he⟩ => ?_).bind fun _ =>
    failsBy_emit _) ls e he
  exact .within hm hu he

theorem failsBy_methodsCode (ht : WellDeclared s p t) {ms : List Method}
    (hms : ∀ m ∈ ms, m ∈ p.methods) : FailsBy (p.Faults t) (methodsCode ⟨t, none⟩ ms) := by
  induction ms with
  | nil => exact failsBy_pure ()
  | cons m ms ih =>
    rw [List.forall_mem_cons] at hms
    exact (Method.failsBy ht hms.1).bind fun _ => ih hms.2

theorem Program.failsBy (ht : WellDeclared s p t) : FailsBy (p.Faults t) (p.code ⟨t, none⟩) := by
  have hbody := failsAt_bodyCode (σ := ⟨t, none⟩) (List.Subset.refl (Stmt.usesAll p.body))
  exact (hbody.mono fun e ⟨u, hu, he⟩ => .main hu he).bind fun _ => (failsBy_emit _).bind fun _ =>
    (failsBy_methodsCode ht fun _ hm => hm).bind fun _ => failsBy_scratchWords.bind fun _ =>
    failsBy_emit _

/-- What an error of a compilation comes from. -/
theorem Program.compile_eq_error {e : CompileError} (h : (p.compile s).result = .error e) :
    (∃ f, e = .layout f) ∨
      (∃ d region, p.Redeclares s d region ∧ e = .duplicate d.name region (some d.location)) ∨
      (∃ m, Repeated (fun m => m.name) [] p.methods m ∧
        e = .duplicate m.name .methods (some m.location)) ∨
      ∃ t, WellDeclared s p t ∧ p.Faults t e := by
  rcases Logged.bind_eq_error.1 h with h | ⟨t, ht, h⟩
  · rcases Table.ofProgram_eq_error h with h | h | h
    · exact .inl h
    · exact .inr (.inl h)
    · exact .inr (.inr (.inl h))
  have ht := Table.ofProgram_eq_ok.1 ht
  rcases Logged.bind_eq_error.1 h with h | ⟨code, -, h⟩
  · refine .inr (.inr (.inr ⟨t, ht, Program.failsBy ht {} e ?_⟩))
    cases hresult : ((p.code ⟨t, none⟩).run {}).result with
    | ok _ => simp [assembly, hresult, Except.map] at h
    | error e' => simpa [assembly, hresult, Except.map] using h
  · cases h

end Program

end Lpl
