import Lpl.Proofs.Emission

/-!
# Which programs compile

**Theorem (`compile_succeeds_iff`).** A program compiles exactly if it is `Compilable`: its
declarations are distinct and have room, and whatever its bodies mention is declared and in its place.
Settings that differ in the treatment of hidden globals only, and accept the program, give the same
code.

The checks are spread over the code generator and are met in the order of emission. That order does
not matter for success. Each piece of code succeeds or not whatever labels it starts with, so the
condition of a sequence is the conjunction of the conditions of its parts (`SucceedsIff.bind`). A walk
over the tree then collects one list of *mentions*, and code is emitted exactly if the scope allows
all of them (`Stmt.succeedsIff`).
-/

namespace Lpl

/-! ## What a tree mentions -/

/-- Something in a body that may be out of order. -/
inductive Mention where
  /-- A variable, or the variable of an array element, that is read or assigned. -/
  | var (name : String)
  /-- A method that is called. -/
  | method (name : String)
  /-- A `RETURN`. -/
  | ret
  /-- The values of a switch's cases. -/
  | cases (values : List Int32)
deriving DecidableEq, Repr

mutual

/-- What an expression mentions, at any depth. -/
def Expr.mentions : Expr → List Mention
  | .int .. | .null _ => []
  | .var x _ => [.var x]
  | .unary _ e _ | .length e _ => e.mentions
  | .binary _ a b _ => a.mentions ++ b.mentions
  | .index x es _ => .var x :: Expr.mentionsAll es
  | .new es _ _ => Expr.mentionsAll es
  | .call f es _ => .method f :: Expr.mentionsAll es

/-- What expressions mention. -/
def Expr.mentionsAll : List Expr → List Mention
  | [] => []
  | e :: es => e.mentions ++ Expr.mentionsAll es

end

mutual

/-- What a statement mentions, at any depth. -/
def Stmt.mentions : Stmt → List Mention
  | .assign x e _ => .var x :: e.mentions
  | .assignAt x es e _ => .var x :: (Expr.mentionsAll es ++ e.mentions)
  | .ifThen c s _ | .whileDo c s _ => c.mentions ++ s.mentions
  | .ifElse c s t _ => c.mentions ++ (s.mentions ++ t.mentions)
  | .switch e cs d _ =>
    .cases (cs.map SwitchCase.value) ::
      (SwitchCase.mentionsAll cs ++ (e.mentions ++ d.mentions))
  | .block ss _ => Stmt.mentionsAll ss
  | .print _ e _ => e.mentions
  | .newline _ => []
  | .ret none _ => [.ret]
  | .ret (some e) _ => .ret :: e.mentions
  | .call f es _ => .method f :: Expr.mentionsAll es

/-- What statements mention. -/
def Stmt.mentionsAll : List Stmt → List Mention
  | [] => []
  | s :: ss => s.mentions ++ Stmt.mentionsAll ss

/-- What the arms of a switch mention. -/
def SwitchCase.mentionsAll : List SwitchCase → List Mention
  | [] => []
  | .mk _ s _ :: cs => s.mentions ++ SwitchCase.mentionsAll cs

end

/-- What may be mentioned in a scope. -/
def Scope.Allows (σ : Scope) : Mention → Prop
  | .var x => ∃ v, σ.find? x = some v
  | .method f => ∃ m, σ.table.method? f = some m
  | .ret => ∃ m, σ.active = some m
  | .cases values => values.Nodup

/-- All the mentions are allowed. -/
def Scope.AllowsAll (σ : Scope) (ms : List Mention) : Prop := ∀ m ∈ ms, σ.Allows m

section Allows

variable {σ : Scope} {m : Mention} {ms ns : List Mention}

@[simp] theorem allowsAll_nil : σ.AllowsAll [] ↔ True := by simp [Scope.AllowsAll]

@[simp] theorem allowsAll_cons : σ.AllowsAll (m :: ms) ↔ σ.Allows m ∧ σ.AllowsAll ms := by
  simp [Scope.AllowsAll]

@[simp] theorem allowsAll_append : σ.AllowsAll (ms ++ ns) ↔ σ.AllowsAll ms ∧ σ.AllowsAll ns := by
  simp [Scope.AllowsAll, or_imp, forall_and]

end Allows

/-! ## When emitters succeed -/

namespace Emitter

/-- The emitter succeeds if `c` holds and fails otherwise, whatever labels it starts with. -/
def SucceedsIff {α : Type} (x : Emitter α) (c : Prop) : Prop :=
  ∀ ls, (∃ a F ls', Emits x ls a F ls') ↔ c

namespace SucceedsIff

variable {α β : Type} {x : Emitter α} {f : α → Emitter β} {c d : Prop}

theorem congr (hx : SucceedsIff x c) (h : c ↔ d) : SucceedsIff x d := fun ls => (hx ls).trans h

/-- The second part has to succeed on what the first part may give. -/
theorem bind_of (hx : SucceedsIff x c)
    (hf : ∀ {ls a F ls'}, Emits x ls a F ls' → SucceedsIff (f a) d) :
    SucceedsIff (x >>= f) (c ∧ d) := by
  intro ls
  constructor
  · rintro ⟨b, F, ls', h⟩
    obtain ⟨a, F₁, ls₁, F₂, h₁, h₂, -⟩ := emits_bind.1 h
    exact ⟨(hx ls).1 ⟨a, F₁, ls₁, h₁⟩, (hf h₁ ls₁).1 ⟨b, F₂, ls', h₂⟩⟩
  · rintro ⟨hc, hd⟩
    obtain ⟨a, F₁, ls₁, h₁⟩ := (hx ls).2 hc
    obtain ⟨b, F₂, ls', h₂⟩ := (hf h₁ ls₁).2 hd
    exact ⟨b, F₁ ++ F₂, ls', emits_bind.2 ⟨a, F₁, ls₁, F₂, h₁, h₂, rfl⟩⟩

theorem bind (hx : SucceedsIff x c) (hf : ∀ a, SucceedsIff (f a) d) : SucceedsIff (x >>= f) (c ∧ d) :=
  hx.bind_of fun _ => hf _

/-- A first part that cannot fail. -/
theorem after_of (hx : SucceedsIff x True)
    (hf : ∀ {ls a F ls'}, Emits x ls a F ls' → SucceedsIff (f a) d) : SucceedsIff (x >>= f) d :=
  (hx.bind_of hf).congr (Iff.of_eq (true_and d))

theorem after (hx : SucceedsIff x True) (hf : ∀ a, SucceedsIff (f a) d) : SucceedsIff (x >>= f) d :=
  hx.after_of fun _ => hf _

/-- A second part that cannot fail. -/
theorem before (hx : SucceedsIff x c) (hf : ∀ a, SucceedsIff (f a) True) : SucceedsIff (x >>= f) c :=
  (hx.bind hf).congr (Iff.of_eq (and_true c))

end SucceedsIff

variable {α : Type}

theorem succeedsIff_pure (a : α) : SucceedsIff (pure a : Emitter α) True := by
  intro ls
  simp

theorem succeedsIff_emit (code : Assembly) : SucceedsIff (emit code) True := by
  intro ls
  simp

theorem succeedsIff_fresh (stem : String) : SucceedsIff (fresh stem) True := by
  intro ls
  simp

theorem succeedsIff_scratch (name : String) : SucceedsIff (scratch name) True := by
  intro ls
  simp

theorem succeedsIff_fail (e : CompileError) : SucceedsIff (fail e : Emitter α) False := by
  intro ls
  simp

end Emitter

open Emitter

/-! ## Expressions -/

section Expressions

variable (σ : Scope)

theorem succeedsIff_address (x : String) (l : Location) :
    SucceedsIff (σ.address x l) (σ.Allows (.var x)) := by
  intro ls
  simp only [emits_address, Scope.Allows]
  constructor
  · rintro ⟨-, F, ls', v, hv, -, -⟩
    exact ⟨v, hv⟩
  · rintro ⟨v, hv⟩
    exact ⟨(), _, ls, v, hv, rfl, rfl⟩

theorem succeedsIff_call {f : String} {l : Location} {argc : Nat} {args : Emitter Unit} {c : Prop}
    (hargs : SucceedsIff args c) : SucceedsIff (σ.call f l argc args) (σ.Allows (.method f) ∧ c) := by
  intro ls
  simp only [emits_call, Scope.Allows, ← hargs ls]
  constructor
  · rintro ⟨-, F, ls', m, G, hm, hG, -⟩
    exact ⟨⟨m, hm⟩, (), G, ls', hG⟩
  · rintro ⟨⟨m, hm⟩, _, G, ls', hG⟩
    exact ⟨(), _, ls', m, G, hm, hG, rfl⟩

mutual

/-- The code of an expression is emitted exactly if the scope allows what it mentions. -/
theorem Expr.succeedsIff : ∀ e : Expr, SucceedsIff (e.code σ) (σ.AllowsAll e.mentions)
  | .int v _ => (succeedsIff_emit [.push v]).congr allowsAll_nil.symm
  | .null _ => (succeedsIff_emit [.push 0]).congr allowsAll_nil.symm
  | .var x l => by
    refine ((succeedsIff_address σ x l).before fun _ => succeedsIff_emit _).congr ?_
    simp [Expr.mentions]
  | .unary .not e _ => (Expr.succeedsIff e).before fun _ => succeedsIff_emit _
  | .unary .neg e _ =>
    (succeedsIff_emit _).after fun _ => (Expr.succeedsIff e).before fun _ => succeedsIff_emit _
  | .binary op a b _ => by
    refine ((Expr.succeedsIff a).bind fun _ => (succeedsIff_emit op.afterLeft).after fun _ =>
      (Expr.succeedsIff b).before fun _ => succeedsIff_emit op.afterRight).congr ?_
    simp [Expr.mentions]
  | .index x es l => by
    refine ((succeedsIff_address σ x l).bind fun _ =>
      (Expr.succeedsIff_element es).before fun _ => succeedsIff_emit [.load]).congr ?_
    simp [Expr.mentions]
  | .length e _ => (Expr.succeedsIff e).before fun _ => succeedsIff_emit _
  | .new es _ _ => (Expr.succeedsIff_all es).before fun _ => succeedsIff_emit _
  | .call f es l => by
    refine (succeedsIff_call σ (l := l) (Expr.succeedsIff_reversed es)).congr ?_
    simp [Expr.mentions]

theorem Expr.succeedsIff_all :
    ∀ es : List Expr, SucceedsIff (Expr.codeAll σ es) (σ.AllowsAll (Expr.mentionsAll es))
  | [] => (succeedsIff_pure ()).congr allowsAll_nil.symm
  | e :: es =>
    ((Expr.succeedsIff e).bind fun _ => Expr.succeedsIff_all es).congr allowsAll_append.symm

theorem Expr.succeedsIff_reversed :
    ∀ es : List Expr, SucceedsIff (Expr.codeReversed σ es) (σ.AllowsAll (Expr.mentionsAll es))
  | [] => (succeedsIff_pure ()).congr allowsAll_nil.symm
  | e :: es => by
    refine ((Expr.succeedsIff_reversed es).bind fun _ => Expr.succeedsIff e).congr ?_
    simp [Expr.mentionsAll, and_comm]

theorem Expr.succeedsIff_element :
    ∀ es : List Expr, SucceedsIff (Expr.elementAddress σ es) (σ.AllowsAll (Expr.mentionsAll es))
  | [] => (succeedsIff_pure ()).congr allowsAll_nil.symm
  | e :: es => by
    refine ((succeedsIff_emit [.load]).after fun _ => (Expr.succeedsIff e).bind fun _ =>
      (succeedsIff_emit [.arrayIndex]).after fun _ => Expr.succeedsIff_element es).congr ?_
    simp [Expr.mentionsAll]

end

end Expressions

/-! ## Statements -/

theorem duplicateCase?_eq_none {earlier : List Int32} {cs : List SwitchCase} :
    duplicateCase? earlier cs = none ↔
      (cs.map SwitchCase.value).Nodup ∧ ∀ v ∈ cs.map SwitchCase.value, v ∉ earlier := by
  induction cs generalizing earlier with
  | nil => simp [duplicateCase?]
  | cons c cs ih =>
    rw [duplicateCase?]
    by_cases hc : c.value ∈ earlier
    · simp [hc]
    · rw [if_neg hc, ih]
      simp only [List.map_cons, List.nodup_cons, List.mem_cons, forall_eq_or_imp, not_or, hc,
        not_false_eq_true, true_and]
      constructor
      · rintro ⟨hnd, hcs⟩
        exact ⟨⟨fun h => (hcs _ h).1 rfl, hnd⟩, fun v hv => (hcs v hv).2⟩
      · rintro ⟨⟨hne, hnd⟩, hcs⟩
        exact ⟨hnd, fun v hv => ⟨fun h => hne (h ▸ hv), hcs v hv⟩⟩

theorem succeedsIff_checkCases (σ : Scope) (cs : List SwitchCase) :
    SucceedsIff (checkCases cs) (σ.Allows (.cases (cs.map SwitchCase.value))) := by
  intro ls
  simp only [emits_checkCases, duplicateCase?_eq_none, Scope.Allows]
  simp

theorem succeedsIff_caseLabels (cs : List SwitchCase) : SucceedsIff (caseLabels cs) True := by
  intro ls
  simp [emits_caseLabels]

section Statements

variable (σ : Scope)

mutual

/-- The code of a statement is emitted exactly if the scope allows what it mentions. -/
theorem Stmt.succeedsIff : ∀ s : Stmt, SucceedsIff (s.code σ) (σ.AllowsAll s.mentions)
  | .assign x e l => by
    refine ((succeedsIff_address σ x l).bind fun _ =>
      (Expr.succeedsIff σ e).before fun _ => succeedsIff_emit [.store]).congr ?_
    simp [Stmt.mentions]
  | .assignAt x es e l => by
    refine ((succeedsIff_address σ x l).bind fun _ => (Expr.succeedsIff_element σ es).bind fun _ =>
      (Expr.succeedsIff σ e).before fun _ => succeedsIff_emit [.store]).congr ?_
    simp [Stmt.mentions]
  | .ifThen c s _ => by
    refine ((Expr.succeedsIff σ c).bind fun _ => (succeedsIff_fresh "if_end").after fun done =>
      (succeedsIff_emit [.jumpIfZero done]).after fun _ =>
      (Stmt.succeedsIff s).before fun _ => succeedsIff_emit [.label done]).congr ?_
    simp [Stmt.mentions]
  | .ifElse c s t _ => by
    refine ((Expr.succeedsIff σ c).bind fun _ => (succeedsIff_fresh "if_else").after fun other =>
      (succeedsIff_fresh "if_end").after fun done =>
      (succeedsIff_emit [.jumpIfZero other]).after fun _ => (Stmt.succeedsIff s).bind fun _ =>
      (succeedsIff_emit [.jump done, .label other]).after fun _ =>
      (Stmt.succeedsIff t).before fun _ => succeedsIff_emit [.label done]).congr ?_
    simp [Stmt.mentions]
  | .whileDo c s _ => by
    refine ((succeedsIff_fresh "while_start").after fun again =>
      (succeedsIff_fresh "while_end").after fun done =>
      (succeedsIff_emit [.label again]).after fun _ => (Expr.succeedsIff σ c).bind fun _ =>
      (succeedsIff_emit [.jumpIfZero done]).after fun _ =>
      (Stmt.succeedsIff s).before fun _ => succeedsIff_emit [.jump again, .label done]).congr ?_
    simp [Stmt.mentions]
  | .switch e cs d _ => by
    refine ((succeedsIff_checkCases σ cs).bind fun _ =>
      (succeedsIff_fresh "switch_dispatch").after fun choice =>
      (succeedsIff_fresh "switch_end").after fun done =>
      (succeedsIff_fresh "switch_default").after fun otherwise =>
      (succeedsIff_caseLabels cs).after_of fun {ls labels F ls'} hlabels =>
      (succeedsIff_emit [.jump choice]).after fun _ =>
      (SwitchCase.succeedsIff_all done cs labels ?_).bind fun _ =>
      (succeedsIff_emit [.label choice]).after fun _ => (Expr.succeedsIff σ e).bind fun _ =>
      (succeedsIff_scratch "switch").after fun word =>
      (succeedsIff_emit (.storei word :: dispatch word cs labels)).after fun _ =>
      (succeedsIff_emit [.label otherwise]).after fun _ =>
      (Stmt.succeedsIff d).before fun _ =>
      succeedsIff_emit [.label done]).congr ?_
    · rw [(emits_caseLabels.1 hlabels).1, length_caseLabelsFrom]
    · simp [Stmt.mentions]
  | .block ss _ => Stmt.succeedsIff_all ss
  | .print k e _ => (Expr.succeedsIff σ e).before fun _ => succeedsIff_emit k.code
  | .newline _ => (succeedsIff_emit newlineCode).congr allowsAll_nil.symm
  | .ret v l => by
    cases hm : σ.active with
    | none =>
      have hfail : Stmt.code σ (.ret v l) = fail (.misplaced .returnOutsideMethod l) := by
        rw [Stmt.code, hm]
      rw [hfail]
      refine (succeedsIff_fail _).congr ?_
      cases v <;> simp [Stmt.mentions, Scope.Allows, hm]
    | some m =>
      have hret : σ.Allows .ret := ⟨m, hm⟩
      cases v with
      | some e =>
        have hcode : Stmt.code σ (.ret (some e) l) =
            (do e.code σ; emit [.push (.ofNat m.frameSize), .ret]) := by
          rw [Stmt.code, hm]
        rw [hcode]
        refine ((Expr.succeedsIff σ e).before fun _ => succeedsIff_emit _).congr ?_
        simp [Stmt.mentions, hret]
      | none =>
        -- A warning is all that a function adds to a procedure here.
        intro ls
        cases hf : m.isFunction <;>
          simp only [Stmt.code, Stmt.mentions, hm, hf, if_true, Bool.false_eq_true, if_false,
            emits_tell_bind, emits_emit_bind, emits_emit, allowsAll_cons, hret, allowsAll_nil,
            and_true, iff_true] <;>
          exact ⟨(), _, _, _, ⟨rfl, rfl⟩, rfl⟩
  | .call f es l => by
    refine ((succeedsIff_call σ (l := l) (Expr.succeedsIff_reversed σ es)).before fun _ =>
      (succeedsIff_scratch "discard").after fun word => succeedsIff_emit [.storei word]).congr ?_
    simp [Stmt.mentions]

theorem Stmt.succeedsIff_all :
    ∀ ss : List Stmt, SucceedsIff (Stmt.codeAll σ ss) (σ.AllowsAll (Stmt.mentionsAll ss))
  | [] => (succeedsIff_pure ()).congr allowsAll_nil.symm
  | s :: ss =>
    ((Stmt.succeedsIff s).bind fun _ => Stmt.succeedsIff_all ss).congr allowsAll_append.symm

theorem SwitchCase.succeedsIff_all (done : String) :
    ∀ (cs : List SwitchCase) (labels : List String), labels.length = cs.length →
      SucceedsIff (SwitchCase.codeAll σ done cs labels) (σ.AllowsAll (SwitchCase.mentionsAll cs))
  | [], [], _ => (succeedsIff_pure ()).congr allowsAll_nil.symm
  | .mk _ s _ :: cs, label :: labels, hlen => by
    have hcs := SwitchCase.succeedsIff_all done cs labels (by simpa using hlen)
    refine ((succeedsIff_emit [.label label]).after fun _ => (Stmt.succeedsIff s).bind fun _ =>
      (succeedsIff_emit [.jump done]).after fun _ => hcs).congr ?_
    simp [SwitchCase.mentionsAll]

end

end Statements

/-! ## Programs -/

section Programs

variable (σ : Scope)

/-- The method is declared and none is active, and inside it all that its body mentions is allowed. -/
def Method.AllowedIn (σ : Scope) (m : Method) : Prop :=
  ∃ s, σ.table.method? m.name = some s ∧ σ.active = none ∧
    (σ.inside s).AllowsAll (Stmt.mentionsAll m.body)

theorem Method.succeedsIff (m : Method) : SucceedsIff (m.code σ) (m.AllowedIn σ) := by
  intro ls
  simp only [emits_method, Method.AllowedIn]
  constructor
  · rintro ⟨-, F, ls', s, B, hs, hactive, hB, -⟩
    exact ⟨s, hs, hactive, (Stmt.succeedsIff_all _ m.body ls).1 ⟨(), B, ls', hB⟩⟩
  · rintro ⟨s, hs, hactive, hbody⟩
    obtain ⟨_, B, ls', hB⟩ := (Stmt.succeedsIff_all _ m.body ls).2 hbody
    exact ⟨(), _, ls', s, B, hs, hactive, hB, rfl⟩

theorem succeedsIff_methodsCode (ms : List Method) :
    SucceedsIff (methodsCode σ ms) (∀ m ∈ ms, m.AllowedIn σ) := by
  induction ms with
  | nil => exact (succeedsIff_pure ()).congr (by simp)
  | cons m ms ih => exact ((Method.succeedsIff σ m).bind fun _ => ih).congr (by simp)

theorem Program.succeedsIff (p : Program) :
    SucceedsIff (p.code σ)
      (σ.AllowsAll (Stmt.mentionsAll p.body) ∧ ∀ m ∈ p.methods, m.AllowedIn σ) := by
  intro ls
  simp only [emits_program]
  constructor
  · rintro ⟨-, F, ls', B, ls₁, G, hB, hG, -⟩
    exact ⟨(Stmt.succeedsIff_all σ p.body ls).1 ⟨(), B, ls₁, hB⟩,
      (succeedsIff_methodsCode σ p.methods ls₁).1 ⟨(), G, ls', hG⟩⟩
  · rintro ⟨hbody, hmethods⟩
    obtain ⟨_, B, ls₁, hB⟩ := (Stmt.succeedsIff_all σ p.body ls).2 hbody
    obtain ⟨_, G, ls', hG⟩ := (succeedsIff_methodsCode σ p.methods ls₁).2 hmethods
    exact ⟨(), _, ls', B, ls₁, G, hB, hG, rfl⟩

end Programs

/-! ## Names and their declarations -/

theorem exists_slot?_iff {x : String} {ds : List Decl} :
    (∃ slot, Scope.slot? x ds = some slot) ↔ x ∈ ds.map Decl.name := by
  induction ds with
  | nil => simp [Scope.slot?]
  | cons d ds ih =>
    rw [Scope.slot?, List.map_cons, List.mem_cons, ← ih]
    by_cases hd : d.name = x
    · simp [hd]
    · cases Scope.slot? x ds <;> simp [hd, Ne.symm hd]

theorem exists_global?_iff {t : Table} {x : String} :
    (∃ v, Scope.global? t x = some v) ↔ x ∈ t.globals.map Decl.name := by
  rw [← exists_slot?_iff, Scope.global?]
  cases Scope.slot? x t.globals <;> simp

theorem exists_inMethod?_iff {m : Signature} {x : String} :
    (∃ v, Scope.inMethod? m x = some v) ↔ x ∈ (m.locals ++ m.params).map Decl.name := by
  rw [List.map_append, List.mem_append, ← exists_slot?_iff, ← exists_slot?_iff, Scope.inMethod?]
  cases Scope.slot? x m.locals <;> cases Scope.slot? x m.params <;> simp

theorem allows_var_main {t : Table} {x : String} :
    Scope.Allows ⟨t, none⟩ (.var x) ↔ x ∈ t.globals.map Decl.name :=
  exists_global?_iff

theorem allows_var_inside {t : Table} {m : Signature} {x : String} :
    Scope.Allows ⟨t, some m⟩ (.var x) ↔ x ∈ (m.locals ++ m.params ++ t.globals).map Decl.name := by
  rw [List.map_append, List.mem_append, ← exists_inMethod?_iff, ← exists_global?_iff]
  show (∃ v, (Scope.inMethod? m x).or (Scope.global? t x) = some v) ↔ _
  cases Scope.inMethod? m x <;> simp

theorem exists_method?_iff {t : Table} {f : String} :
    (∃ m, t.method? f = some m) ↔ f ∈ t.methods.map Signature.name := by
  rw [Table.method?, ← Option.isSome_iff_exists, List.find?_isSome]
  simp

/-- What a scope has to allow, kind by kind. -/
theorem allowsAll_iff {σ : Scope} {ms : List Mention} :
    σ.AllowsAll ms ↔ (∀ x, .var x ∈ ms → σ.Allows (.var x)) ∧
      (∀ f, .method f ∈ ms → σ.Allows (.method f)) ∧ (.ret ∈ ms → σ.Allows .ret) ∧
      ∀ values, .cases values ∈ ms → σ.Allows (.cases values) := by
  constructor
  · intro h
    exact ⟨fun x => h _, fun f => h _, h _, fun values => h _⟩
  · rintro ⟨hvar, hmethod, hret, hcases⟩ (x | f | _ | values) hm
    · exact hvar x hm
    · exact hmethod f hm
    · exact hret hm
    · exact hcases values hm

/-! ## Well-declared programs -/

/-- The main body and the bodies of the methods. -/
def Program.bodies (p : Program) : List (List Stmt) := p.body :: p.methods.map Method.body

/-- The number is a 32-bit integer. -/
def FitsWord (n : Int) : Prop := Numeral.Within Numeral.half32 n

/-- Whatever the bodies of a program mention is declared and in its place. -/
structure Program.Resolved (p : Program) : Prop where
  main_vars : ∀ x, .var x ∈ Stmt.mentionsAll p.body → x ∈ p.globals.map Decl.name
  method_vars : ∀ m ∈ p.methods, ∀ x, .var x ∈ Stmt.mentionsAll m.body →
    x ∈ (m.locals ++ m.params ++ p.globals).map Decl.name
  called : ∀ body ∈ p.bodies, ∀ f, .method f ∈ Stmt.mentionsAll body →
    f ∈ p.methods.map fun m => m.name
  main_ret : .ret ∉ Stmt.mentionsAll p.body
  cases_nodup : ∀ body ∈ p.bodies, ∀ values, .cases values ∈ Stmt.mentionsAll body → values.Nodup

/-- The declarations of a program are distinct and have room, and its bodies mention nothing else. -/
structure Program.Compilable (s : Settings) (p : Program) : Prop extends p.Resolved where
  wordSize : 1 ≤ s.wordSize ∧ s.wordSize ≤ 64
  globals_nodup : (p.globals.map Decl.name).Nodup
  methods_nodup : (p.methods.map fun m => m.name).Nodup
  slots_nodup : ∀ m ∈ p.methods, ((m.params ++ m.locals).map Decl.name).Nodup
  hides_none : s.shadowing = .reject →
    ∀ m ∈ p.methods, ∀ d ∈ m.params ++ m.locals, d.name ∉ p.globals.map Decl.name
  globals_fit : ∀ i < p.globals.length, FitsWord (i * s.wordSize)
  params_fit : ∀ m ∈ p.methods, ∀ i < m.params.length, FitsWord ((i + 3) * s.wordSize)
  locals_fit : ∀ m ∈ p.methods, ∀ i < m.locals.length, FitsWord ((i + 3) * s.wordSize)

theorem fitsWord_iff {s : Settings} {w words : Nat} (hw : s.wordSize = w) {n : Int} (hn : n = words) :
    FitsWord (n * s.wordSize) ↔ Table.InRange w words := by
  have hcast : n * s.wordSize = ((words * w : Nat) : Int) := by rw [hw, hn]; rfl
  unfold FitsWord Numeral.Within Numeral.half32 Table.InRange
  rw [hcast]
  omega

theorem methodOk_iff {s : Settings} {w : Nat} (hw : s.wordSize = w) {globals : List Decl}
    {m : Signature} :
    Table.MethodOk w globals s.shadowing m ↔
      ((m.params ++ m.locals).map Decl.name).Nodup ∧
        (s.shadowing = .reject → ∀ d ∈ m.params ++ m.locals, d.name ∉ globals.map Decl.name) ∧
        (∀ i < m.params.length, FitsWord ((i + 3) * s.wordSize)) ∧
        ∀ i < m.locals.length, FitsWord ((i + 3) * s.wordSize) := by
  have hfits : ∀ i : Nat, FitsWord ((i + 3) * s.wordSize) ↔ Table.InRange w (i + 1 + linkageWords) :=
    fun i => fitsWord_iff hw (by rw [linkageWords]; omega)
  have hdisjoint : (∀ x ∈ m.params.map Decl.name, ∀ y ∈ m.locals.map Decl.name, x ≠ y) ↔
      ∀ d ∈ m.locals, ¬ Table.Declares m.params d.name := by
    simp only [Table.Declares, List.mem_map, forall_exists_index, and_imp,
      forall_apply_eq_imp_iff₂, not_exists, not_and]
    exact ⟨fun h d hd d' hd' => h d' hd' d hd, fun h d' hd' d hd => h d hd d' hd'⟩
  simp only [hfits, List.map_append, List.nodup_append, hdisjoint]
  constructor
  · intro h
    exact ⟨⟨h.params.1, h.locals.1, h.disjoint⟩, h.visible, h.params_inRange, h.locals_inRange⟩
  · rintro ⟨⟨hp, hl, hd⟩, hv, hpr, hlr⟩
    exact ⟨⟨hp, by simp [Table.Declares]⟩, hpr, ⟨hl, by simp [Table.Declares]⟩, hlr, hd, hv⟩

theorem method?_of_mem {s : Settings} {p : Program} {t : Table} (h : WellDeclared s p t) {m : Method}
    (hm : m ∈ p.methods) : t.method? m.name = some m.toSignature := by
  have hnodup := h.methods_nodup
  rw [Table.method?, h.methods]
  generalize p.methods = ms at hm hnodup
  induction ms with
  | nil => cases hm
  | cons m' ms ih =>
    rw [List.map_cons, List.nodup_cons] at hnodup
    rw [List.map_cons, List.find?_cons]
    rcases List.mem_cons.1 hm with rfl | hm
    · simp
    · have hne : m'.name ≠ m.name := by
        intro heq
        exact hnodup.1 (heq ▸ List.mem_map_of_mem hm)
      simpa [hne] using ih hm hnodup.2

section WellDeclared

variable {s : Settings} {p : Program} {t : Table} (h : WellDeclared s p t)

include h

theorem allows_method_iff {active : Option Signature} {f : String} :
    Scope.Allows ⟨t, active⟩ (.method f) ↔ f ∈ p.methods.map fun m => m.name := by
  refine exists_method?_iff.trans ?_
  rw [h.methods, List.map_map]
  rfl

theorem allowedIn_iff {m : Method} (hm : m ∈ p.methods) :
    m.AllowedIn ⟨t, none⟩ ↔
      Scope.AllowsAll ⟨t, some m.toSignature⟩ (Stmt.mentionsAll m.body) := by
  have hlookup := method?_of_mem h hm
  constructor
  · rintro ⟨s, hs, -, hbody⟩
    obtain rfl := Option.some.inj (hs.symm.trans hlookup)
    exact hbody
  · intro hbody
    exact ⟨m.toSignature, hlookup, rfl, hbody⟩

/-- Under the table of a program, its bodies may mention what they do if it is resolved. -/
theorem allowed_iff_resolved :
    Scope.AllowsAll ⟨t, none⟩ (Stmt.mentionsAll p.body) ∧
      (∀ m ∈ p.methods, m.AllowedIn ⟨t, none⟩) ↔ p.Resolved := by
  constructor
  · rintro ⟨hbody, hms⟩
    obtain ⟨hvar, hcall, hret, hcases⟩ := allowsAll_iff.1 hbody
    have hms := fun m hm => allowsAll_iff.1 ((allowedIn_iff h hm).1 (hms m hm))
    simp only [allows_var_main, allows_var_inside, allows_method_iff h, h.globals]
      at hvar hcall hms
    exact {
      main_vars := hvar
      method_vars := fun m hm => (hms m hm).1
      called := by
        simp only [Program.bodies, List.forall_mem_cons, List.forall_mem_map]
        exact ⟨hcall, fun m hm => (hms m hm).2.1⟩
      main_ret := fun hmem => by simpa [Scope.Allows] using hret hmem
      cases_nodup := by
        simp only [Program.bodies, List.forall_mem_cons, List.forall_mem_map]
        exact ⟨hcases, fun m hm => (hms m hm).2.2.2⟩ }
  · intro hp
    have hbody : ∀ m ∈ p.methods, m.body ∈ p.bodies :=
      fun m hm => List.mem_cons_of_mem _ (List.mem_map_of_mem hm)
    have hmain : p.body ∈ p.bodies := List.mem_cons_self
    refine ⟨allowsAll_iff.2 ⟨?_, ?_, ?_, hp.cases_nodup _ hmain⟩, fun m hm =>
      (allowedIn_iff h hm).2 (allowsAll_iff.2 ⟨?_, ?_, ?_, hp.cases_nodup _ (hbody m hm)⟩)⟩
    · simpa only [allows_var_main, h.globals] using hp.main_vars
    · simpa only [allows_method_iff h] using hp.called _ hmain
    · exact fun hmem => absurd hmem hp.main_ret
    · simpa only [allows_var_inside, h.globals] using hp.method_vars m hm
    · simpa only [allows_method_iff h] using hp.called _ (hbody m hm)
    · exact fun _ => ⟨m.toSignature, rfl⟩

theorem WellDeclared.compilable (hp : p.Resolved) : p.Compilable s := by
  have hok := fun m hm => (methodOk_iff h.wordSize).1 (h.methods_ok m hm)
  have hone := h.one_le_wordSize
  have hmax : t.wordSize ≤ 64 := h.wordSize_le
  exact {
    hp with
    wordSize := by rw [h.wordSize]; omega
    globals_nodup := h.globals_nodup
    methods_nodup := h.methods_nodup
    slots_nodup := fun m hm => (hok m hm).1
    hides_none := fun hreject m hm => (hok m hm).2.1 hreject
    globals_fit := fun i hi => (fitsWord_iff h.wordSize rfl).2 (h.globals_inRange i hi)
    params_fit := fun m hm => (hok m hm).2.2.1
    locals_fit := fun m hm => (hok m hm).2.2.2 }

end WellDeclared

theorem Program.Compilable.wellDeclared {s : Settings} {p : Program} (h : p.Compilable s) :
    WellDeclared s p ⟨s.wordSize.toNat, p.globals, p.methods.map Method.toSignature⟩ := by
  obtain ⟨hone, hmax⟩ := h.wordSize
  have hw : s.wordSize = s.wordSize.toNat := by omega
  exact {
    wordSize := hw
    one_le_wordSize := by show 1 ≤ s.wordSize.toNat; omega
    wordSize_le := by show s.wordSize.toNat ≤ 64; omega
    globals := rfl
    methods := rfl
    globals_nodup := h.globals_nodup
    globals_inRange := fun i hi => (fitsWord_iff hw rfl).1 (h.globals_fit i hi)
    methods_nodup := h.methods_nodup
    methods_ok := fun m hm => (methodOk_iff hw).2 ⟨h.slots_nodup m hm,
      fun hreject => h.hides_none hreject m hm, h.params_fit m hm, h.locals_fit m hm⟩ }

/-- A program has one table for each word size. -/
theorem WellDeclared.unique {s s' : Settings} {p : Program} {t t' : Table} (h : WellDeclared s p t)
    (h' : WellDeclared s' p t') (hw : s.wordSize = s'.wordSize) : t = t' := by
  have hsize : t.wordSize = t'.wordSize := by
    have := h.wordSize.symm.trans (hw.trans h'.wordSize)
    omega
  obtain ⟨w, globals, methods⟩ := t
  obtain ⟨w', globals', methods'⟩ := t'
  rw [Table.mk.injEq]
  exact ⟨hsize, h.globals.trans h'.globals.symm, h.methods.trans h'.methods.symm⟩

theorem compile_succeeds_iff (s : Settings) (p : Program) :
    ((∃ code, (p.compile s).result = .ok code) ↔ p.Compilable s) ∧
      ∀ policy code code', (p.compile s).result = .ok code →
        (p.compile { s with shadowing := policy }).result = .ok code' → code = code' := by
  refine ⟨⟨?_, ?_⟩, ?_⟩
  · rintro ⟨code, hcode⟩
    obtain ⟨t, ls, ht, hemits⟩ := Program.compile_eq_ok.1 hcode
    have hallowed := (Program.succeedsIff _ p {}).1 ⟨(), code, ls, hemits⟩
    exact ht.compilable ((allowed_iff_resolved ht).1 hallowed)
  · intro h
    have hallowed := (allowed_iff_resolved h.wellDeclared).2 h.toResolved
    obtain ⟨_, code, ls, hemits⟩ := (Program.succeedsIff _ p {}).2 hallowed
    exact ⟨code, Program.compile_eq_ok.2 ⟨_, ls, h.wellDeclared, hemits⟩⟩
  · intro policy code code' hcode hcode'
    obtain ⟨t, ls, ht, -, rfl, -⟩ := Program.compile_eq_ok.1 hcode
    obtain ⟨t', ls', ht', -, rfl, -⟩ := Program.compile_eq_ok.1 hcode'
    obtain rfl := ht.unique ht' rfl
    rfl

/-- A local hides a global that the main body switches on. -/
def hidingLocal : Program where
  globals := [⟨"x", ⟨0⟩, ⟨1, 7⟩⟩]
  body := [.switch (.var "x" ⟨2, 9⟩) [.mk 1 (.call "p" [.var "x" ⟨3, 13⟩] ⟨3, 11⟩) ⟨3, 3⟩]
    (.newline ⟨4, 12⟩) ⟨2, 1⟩]
  methods := [⟨⟨"p", none, [⟨"y", ⟨0⟩, ⟨6, 8⟩⟩], [⟨"x", ⟨1⟩, ⟨7, 3⟩⟩]⟩,
    [.assignAt "x" [.var "y" ⟨8, 5⟩] (.length (.var "x" ⟨8, 10⟩) ⟨8, 10⟩) ⟨8, 3⟩, .ret none ⟨9, 3⟩],
    ⟨6, 1⟩⟩]

/-- The hidden global is an error under one policy, and makes no difference to the code under the
others. -/
theorem compile_succeeds_iff_hidingLocal :
    ∃ code, (hidingLocal.compile {}).result = .ok code ∧ hidingLocal.Compilable {} ∧
      (∀ code', (hidingLocal.compile { shadowing := .allow }).result = .ok code' → code = code') ∧
      ¬ hidingLocal.Compilable { shadowing := .reject } := by
  obtain ⟨code, hcode⟩ : ∃ code, (hidingLocal.compile {}).result = .ok code := ⟨_, rfl⟩
  obtain ⟨hiff, hsame⟩ := compile_succeeds_iff {} hidingLocal
  refine ⟨code, hcode, hiff.1 ⟨code, hcode⟩, fun code' h => hsame .allow code code' hcode h, ?_⟩
  rw [← (compile_succeeds_iff { shadowing := .reject } hidingLocal).1]
  rintro ⟨code', h⟩
  cases h

end Lpl
