import Mathlib.Data.List.Forall2
import Lpl.Proofs.Emission

/-!
# Two runs of the code generator

Two runs over one tree can differ in the labels that they start with and in the scope. A `Coupling` says
how the supplies, the labels and the code of two runs go together, and has a law for each thing that the
code generator does with them. Whatever the coupling, the runs stay coupled (`Expr.coupled`,
`Stmt.coupled`): they break off at the same point with one error, or come to the same end, and what they
emitted until then is coupled. So a property of two runs is a coupling, and its laws are all there is to
prove.
-/

namespace Lpl

/-! ## Lines -/

/-- A line that has no label and does not start an address. -/
def Instruction.isBare : Instruction → Bool
  | getFp | getDp | loadi _ | storei _ | jump _ | jumpIfZero _ | call _ | label _ | data | word .. => false
  | _ => true

/-- Lines that are the same but for labels of places and scratch words, which `R` relates. -/
inductive Instruction.Alike (R : String → String → Prop) : Instruction → Instruction → Prop
  | bare {i} : i.isBare → Alike R i i
  | call {f} : Alike R (.call (methodLabel f)) (.call (methodLabel f))
  | place {l l'} : R l l' → Alike R (.label l) (.label l')
  | jump {l l'} : R l l' → Alike R (.jump l) (.jump l')
  | jumpIfZero {l l'} : R l l' → Alike R (.jumpIfZero l) (.jumpIfZero l')
  | loadi {l l'} : R l l' → Alike R (.loadi l) (.loadi l')
  | storei {l l'} : R l l' → Alike R (.storei l) (.storei l')

/-! ## Couplings -/

/-- How two runs go together: the labels that they can still take, labels that they have taken, and the
code that they have emitted. -/
structure Coupling where
  supply : Labels → Labels → Prop
  label : String → String → Prop
  code : Assembly → Assembly → Prop
  nil : code [] []
  append : ∀ {F F' G G'}, code F F' → code G G' → code (F ++ G) (F' ++ G')
  line : ∀ {i i'}, i.Alike label i' → code [i] [i']
  fresh : ∀ {ls ls'} (stem), supply ls ls' →
    label (placeLabel stem ls.next) (placeLabel stem ls'.next) ∧ supply (ls.skip 1) (ls'.skip 1)
  scratch : ∀ {ls ls'} (name), supply ls ls' →
    label (scratchLabel name) (scratchLabel name) ∧
      supply (ls.withScratch name) (ls'.withScratch name)

/-- The two scopes have the same methods, and a variable of one has a place in the other, with coupled
addresses. -/
structure Coupling.Scopes (c : Coupling) (σ σ' : Scope) : Prop where
  methods : σ'.table.methods = σ.table.methods
  active : σ'.active = σ.active
  none : ∀ {x}, σ.find? x = none → σ'.find? x = none
  some : ∀ {x v}, σ.find? x = some v → ∃ v', σ'.find? x = some v' ∧
    c.code (v.place.address σ.table.wordSize) (v'.place.address σ'.table.wordSize)

/-- Both emissions have results that `R` relates, or both broke off with one error; and their labels and
their code are coupled. -/
structure Emission.Coupled {α β : Type} (c : Coupling) (R : α → β → Prop) (e : Emission α)
    (e' : Emission β) : Prop where
  result : (∃ a b, e.result = .ok a ∧ e'.result = .ok b ∧ R a b) ∨
    ∃ err, e.result = .error err ∧ e'.result = .error err
  code : c.code e.code e'.code
  supply : c.supply e.labels e'.labels

namespace Emitter

variable {α β γ δ : Type} {c : Coupling} {R : α → β → Prop} {S : γ → δ → Prop}

/-- Run on coupled supplies, the emitters are coupled. -/
def Coupled (c : Coupling) (R : α → β → Prop) (x : Emitter α) (y : Emitter β) : Prop :=
  ∀ ls ls', c.supply ls ls' → (x.run ls).Coupled c R (y.run ls')

theorem Coupled.bind {x : Emitter α} {y : Emitter β} {k : α → Emitter γ} {k' : β → Emitter δ}
    (hx : Coupled c R x y) (hk : ∀ a b, R a b → Coupled c S (k a) (k' b)) :
    Coupled c S (x >>= k) (y >>= k') := by
  intro ls ls' hls
  obtain ⟨hresult, hcode, hsupply⟩ := hx ls ls' hls
  rw [run_bind, run_bind]
  rcases hresult with ⟨a, b, ha, hb, hab⟩ | ⟨err, ha, hb⟩
  · have hrest := hk a b hab _ _ hsupply
    rw [ha, hb]
    exact ⟨hrest.result, c.append hcode hrest.code, hrest.supply⟩
  · rw [ha, hb]
    exact ⟨.inr ⟨err, rfl, rfl⟩, hcode, hsupply⟩

/-- Behind emitters without a result of their own. -/
theorem Coupled.seq {x y : Emitter Unit} {k : Unit → Emitter γ} {k' : Unit → Emitter δ}
    (hx : Coupled c Eq x y) (hk : Coupled c S (k ()) (k' ())) :
    Coupled c S (x >>= k) (y >>= k') :=
  hx.bind fun _ _ _ => hk

theorem coupled_pure {a : α} {b : β} (h : R a b) : Coupled c R (pure a) (pure b) :=
  fun _ _ hls => ⟨.inl ⟨a, b, rfl, rfl, h⟩, c.nil, hls⟩

theorem coupled_ofExcept {r : Except CompileError α} {r' : Except CompileError β}
    (h : (∃ a b, r = .ok a ∧ r' = .ok b ∧ R a b) ∨ ∃ err, r = .error err ∧ r' = .error err) :
    Coupled c R (ofExcept r) (ofExcept r') :=
  fun _ _ hls => ⟨h, c.nil, hls⟩

theorem coupled_same (r : Except CompileError α) : Coupled c Eq (ofExcept r) (ofExcept r) := by
  refine coupled_ofExcept ?_
  cases r with
  | ok a => exact .inl ⟨a, a, rfl, rfl, rfl⟩
  | error err => exact .inr ⟨err, rfl, rfl⟩

theorem coupled_fail (err : CompileError) : Coupled c R (fail err) (fail err) :=
  coupled_ofExcept (.inr ⟨err, rfl, rfl⟩)

theorem coupled_emit {F F' : Assembly} (h : c.code F F') : Coupled c Eq (emit F) (emit F') :=
  fun _ _ hls => ⟨.inl ⟨(), (), rfl, rfl, rfl⟩, h, hls⟩

theorem coupled_tell (e : Event) : Coupled c Eq (tell e) (tell e) :=
  fun _ _ hls => ⟨.inl ⟨(), (), rfl, rfl, rfl⟩, c.nil, hls⟩

theorem Coupled.locatedAt {x : Emitter α} {y : Emitter β} (h : Coupled c R x y) (l : Location) :
    Coupled c R (locatedAt l x) (locatedAt l y) := by
  intro ls ls' hls
  obtain ⟨hresult, hcode, hsupply⟩ := h ls ls' hls
  refine ⟨?_, hcode, hsupply⟩
  show (∃ a b, (x.run ls).result.mapError _ = .ok a ∧ (y.run ls').result.mapError _ = .ok b ∧ R a b) ∨
    ∃ err, (x.run ls).result.mapError _ = .error err ∧ (y.run ls').result.mapError _ = .error err
  rcases hresult with ⟨a, b, ha, hb, hab⟩ | ⟨err, ha, hb⟩
  · rw [ha, hb]
    exact .inl ⟨a, b, rfl, rfl, hab⟩
  · rw [ha, hb]
    exact .inr ⟨err.locatedAt l, rfl, rfl⟩

theorem coupled_fresh (stem : String) : Coupled c c.label (fresh stem) (fresh stem) := by
  intro ls ls' hls
  obtain ⟨hlabel, hskip⟩ := c.fresh stem hls
  exact ⟨.inl ⟨_, _, rfl, rfl, hlabel⟩, c.nil, hskip⟩

theorem coupled_scratch (name : String) : Coupled c c.label (scratch name) (scratch name) := by
  intro ls ls' hls
  obtain ⟨hlabel, hscratch⟩ := c.scratch name hls
  exact ⟨.inl ⟨_, _, rfl, rfl, hlabel⟩, c.nil, hscratch⟩

/-- What the coupling says of two runs that succeed. -/
theorem Coupled.emits {x : Emitter α} {y : Emitter β} {ls ls' ls₁ ls₁' : Labels} {a : α} {b : β}
    {F F' : Assembly} (h : Coupled c R x y) (hls : c.supply ls ls') (hx : Emits x ls a F ls₁)
    (hy : Emits y ls' b F' ls₁') : c.code F F' ∧ c.supply ls₁ ls₁' := by
  obtain ⟨-, rfl, rfl⟩ := hx
  obtain ⟨-, rfl, rfl⟩ := hy
  exact ⟨(h ls ls' hls).code, (h ls ls' hls).supply⟩

end Emitter

namespace Coupling

variable (c : Coupling)

theorem lines {F F' : Assembly} (h : List.Forall₂ (Instruction.Alike c.label) F F') : c.code F F' := by
  induction h with
  | nil => exact c.nil
  | cons hi _ ih => exact c.append (c.line hi) ih

theorem bare {F : Assembly} (h : F.all Instruction.isBare) : c.code F F := by
  refine c.lines (List.forall₂_same.2 fun i hi => .bare ?_)
  exact List.all_eq_true.1 h i hi

theorem dispatch {word word' : String} (hword : c.label word word') (cs : List SwitchCase)
    {labels labels' : List String} (h : List.Forall₂ c.label labels labels') :
    c.code (dispatch word cs labels) (dispatch word' cs labels') := by
  induction h generalizing cs with
  | nil => simpa [Lpl.dispatch] using c.nil
  | @cons l l' labels labels' hl _ ih =>
    cases cs with
    | nil => exact c.nil
    | cons case cs =>
      have hcase : c.code [.loadi word, .push case.value, .sub, .jumpIfZero l]
          [.loadi word', .push case.value, .sub, .jumpIfZero l'] :=
        c.lines (.cons (.loadi hword) (.cons (.bare rfl) (.cons (.bare rfl)
          (.cons (.jumpIfZero hl) .nil))))
      exact c.append hcase (ih cs)

end Coupling

open Emitter

/-! ## Trees -/

section

variable {c : Coupling} {σ σ' : Scope}

theorem Coupling.Scopes.method (h : c.Scopes σ σ') (f : String) :
    σ'.table.method f = σ.table.method f := by
  unfold Table.method Table.method?
  rw [h.methods]

theorem coupled_address (h : c.Scopes σ σ') (x : String) (l : Location) :
    Coupled c Eq (σ.address x l) (σ'.address x l) := by
  have hresolve : Coupled c (fun v v' => c.code (v.place.address σ.table.wordSize)
      (v'.place.address σ'.table.wordSize)) (ofExcept (σ.resolve x)) (ofExcept (σ'.resolve x)) := by
    refine coupled_ofExcept ?_
    unfold Scope.resolve
    cases hx : σ.find? x with
    | none =>
      rw [h.none hx]
      exact .inr ⟨_, rfl, rfl⟩
    | some v =>
      obtain ⟨v', hv', hcode⟩ := h.some hx
      rw [hv']
      exact .inl ⟨v, v', rfl, rfl, hcode⟩
  exact (hresolve.locatedAt l).bind fun _ _ hcode => coupled_emit hcode

theorem coupled_call (h : c.Scopes σ σ') (f : String) (l : Location) (argc : Nat)
    {args args' : Emitter Unit} (hargs : Coupled c Eq args args') :
    Coupled c Eq (σ.call f l argc args) (σ'.call f l argc args') := by
  unfold Scope.call
  rw [h.method]
  refine ((coupled_same _).locatedAt l).bind fun _ _ _ => hargs.seq (coupled_emit (c.lines ?_))
  exact .cons (.bare rfl) (.cons .call .nil)

theorem coupled_bare {F : Assembly} (h : F.all Instruction.isBare) : Coupled c Eq (emit F) (emit F) :=
  coupled_emit (c.bare h)

theorem isBare_afterLeft (op : BinaryOp) : op.afterLeft.all Instruction.isBare := by
  cases op <;> rfl

theorem isBare_afterRight (op : BinaryOp) : op.afterRight.all Instruction.isBare := by
  cases op <;> rfl

theorem isBare_print (k : PrintKind) : k.code.all Instruction.isBare := by
  cases k <;> rfl

mutual

theorem Expr.coupled (h : c.Scopes σ σ') : (e : Expr) → Coupled c Eq (e.code σ) (e.code σ')
  | .int _ _ | .null _ => coupled_bare rfl
  | .var x l => (coupled_address h x l).seq (coupled_bare rfl)
  | .unary .not e _ => (Expr.coupled h e).seq (coupled_bare rfl)
  | .unary .neg e _ => (coupled_bare rfl).seq ((Expr.coupled h e).seq (coupled_bare rfl))
  | .binary op a b _ => (Expr.coupled h a).seq <| (coupled_bare (isBare_afterLeft op)).seq <|
    (Expr.coupled h b).seq (coupled_bare (isBare_afterRight op))
  | .index x es l => (coupled_address h x l).seq <| (Expr.coupled_element h es).seq
    (coupled_bare rfl)
  | .length e _ => (Expr.coupled h e).seq (coupled_bare rfl)
  | .new es _ _ => (Expr.coupled_all h es).seq (coupled_bare rfl)
  | .call f es l => coupled_call h f l es.length (Expr.coupled_reversed h es)

theorem Expr.coupled_all (h : c.Scopes σ σ') :
    (es : List Expr) → Coupled c Eq (Expr.codeAll σ es) (Expr.codeAll σ' es)
  | [] => coupled_pure rfl
  | e :: es => (Expr.coupled h e).seq (Expr.coupled_all h es)

theorem Expr.coupled_reversed (h : c.Scopes σ σ') :
    (es : List Expr) → Coupled c Eq (Expr.codeReversed σ es) (Expr.codeReversed σ' es)
  | [] => coupled_pure rfl
  | e :: es => (Expr.coupled_reversed h es).seq (Expr.coupled h e)

theorem Expr.coupled_element (h : c.Scopes σ σ') :
    (es : List Expr) → Coupled c Eq (Expr.elementAddress σ es) (Expr.elementAddress σ' es)
  | [] => coupled_pure rfl
  | e :: es => (coupled_bare rfl).seq <| (Expr.coupled h e).seq <|
    (coupled_bare rfl).seq (Expr.coupled_element h es)

end

theorem coupled_checkCases (cs : List SwitchCase) : Coupled c Eq (checkCases cs) (checkCases cs) := by
  unfold checkCases
  cases duplicateCase? [] cs with
  | none => exact coupled_pure rfl
  | some d => exact coupled_fail _

theorem coupled_caseLabels (cs : List SwitchCase) :
    Coupled c (List.Forall₂ c.label) (caseLabels cs) (caseLabels cs) := by
  induction cs with
  | nil => exact coupled_pure .nil
  | cons d cs ih =>
    exact (coupled_fresh _).bind fun _ _ hl => ih.bind fun _ _ hls => coupled_pure (.cons hl hls)

theorem coupled_place {l l' : String} (h : c.label l l') :
    Coupled c Eq (emit [.label l]) (emit [.label l']) :=
  coupled_emit (c.line (.place h))

theorem coupled_jump {l l' : String} (h : c.label l l') :
    Coupled c Eq (emit [.jump l]) (emit [.jump l']) :=
  coupled_emit (c.line (.jump h))

theorem coupled_jumpIfZero {l l' : String} (h : c.label l l') :
    Coupled c Eq (emit [.jumpIfZero l]) (emit [.jumpIfZero l']) :=
  coupled_emit (c.line (.jumpIfZero h))

theorem coupled_jump_place {l l' m m' : String} (hl : c.label l l') (hm : c.label m m') :
    Coupled c Eq (emit [.jump l, .label m]) (emit [.jump l', .label m']) :=
  coupled_emit (c.lines (.cons (.jump hl) (.cons (.place hm) .nil)))

theorem coupled_ret (h : c.Scopes σ σ') (v : Option Expr) (l : Location) :
    Coupled c Eq (Stmt.code σ (.ret v l)) (Stmt.code σ' (.ret v l)) := by
  unfold Stmt.code
  rw [h.active]
  cases σ.active with
  | none => exact coupled_fail _
  | some m =>
    cases v with
    | some e => exact (e.coupled h).seq (coupled_bare rfl)
    | none =>
      have hrest : Coupled c Eq (do emit [.push 0]; emit [.push (.ofNat m.frameSize), .ret])
          (do emit [.push 0]; emit [.push (.ofNat m.frameSize), .ret]) :=
        (coupled_bare rfl).seq (coupled_bare rfl)
      by_cases hf : m.isFunction
      · simp only [hf]
        exact (coupled_tell _).seq hrest
      · simp only [hf]
        exact hrest

mutual

theorem Stmt.coupled (h : c.Scopes σ σ') : (s : Stmt) → Coupled c Eq (s.code σ) (s.code σ')
  | .assign x e l => (coupled_address h x l).seq <| (e.coupled h).seq (coupled_bare rfl)
  | .assignAt x es e l => (coupled_address h x l).seq <| (Expr.coupled_element h es).seq <|
    (e.coupled h).seq (coupled_bare rfl)
  | .ifThen e s _ => (e.coupled h).seq <| (coupled_fresh _).bind fun _ _ hdone =>
    (coupled_jumpIfZero hdone).seq <| (Stmt.coupled h s).seq (coupled_place hdone)
  | .ifElse e s t _ => (e.coupled h).seq <| (coupled_fresh _).bind fun _ _ hother =>
    (coupled_fresh _).bind fun _ _ hdone => (coupled_jumpIfZero hother).seq <|
    (Stmt.coupled h s).seq <| (coupled_jump_place hdone hother).seq <|
    (Stmt.coupled h t).seq (coupled_place hdone)
  | .whileDo e s _ => (coupled_fresh _).bind fun _ _ hagain => (coupled_fresh _).bind fun _ _ hdone =>
    (coupled_place hagain).seq <| (e.coupled h).seq <| (coupled_jumpIfZero hdone).seq <|
    (Stmt.coupled h s).seq (coupled_jump_place hagain hdone)
  | .switch e cs d _ => (coupled_checkCases cs).seq <| (coupled_fresh _).bind fun _ _ hchoice =>
    (coupled_fresh _).bind fun _ _ hdone => (coupled_fresh _).bind fun _ _ hotherwise =>
    (coupled_caseLabels cs).bind fun _ _ hlabels => (coupled_jump hchoice).seq <|
    (SwitchCase.coupled_all h hdone cs hlabels).seq <| (coupled_place hchoice).seq <|
    (e.coupled h).seq <| (coupled_scratch "switch").bind fun _ _ hword =>
    (coupled_emit (c.append (c.line (.storei hword)) (c.dispatch hword cs hlabels))).seq <|
    (coupled_place hotherwise).seq <| (Stmt.coupled h d).seq (coupled_place hdone)
  | .block ss _ => Stmt.coupled_all h ss
  | .print k e _ => (e.coupled h).seq (coupled_bare (isBare_print k))
  | .newline _ => coupled_bare rfl
  | .ret v l => coupled_ret h v l
  | .call f es l => (coupled_call h f l _ (Expr.coupled_reversed h es)).seq <|
    (coupled_scratch "discard").bind fun _ _ hword => coupled_emit (c.line (.storei hword))

theorem Stmt.coupled_all (h : c.Scopes σ σ') :
    (ss : List Stmt) → Coupled c Eq (Stmt.codeAll σ ss) (Stmt.codeAll σ' ss)
  | [] => coupled_pure rfl
  | s :: ss => (Stmt.coupled h s).seq (Stmt.coupled_all h ss)

theorem SwitchCase.coupled_all (h : c.Scopes σ σ') {done done' : String} (hdone : c.label done done') :
    (cs : List SwitchCase) → {labels labels' : List String} → List.Forall₂ c.label labels labels' →
      Coupled c Eq (SwitchCase.codeAll σ done cs labels) (SwitchCase.codeAll σ' done' cs labels')
  | .mk _ s _ :: cs, _, _, .cons hl hlabels => (coupled_place hl).seq <| (Stmt.coupled h s).seq <|
    (coupled_jump hdone).seq (SwitchCase.coupled_all h hdone cs hlabels)
  | [], _, _, _ | .mk _ _ _ :: _, _, _, .nil => coupled_pure rfl

end

theorem coupled_bodyCode (h : c.Scopes σ σ') (ss : List Stmt) :
    Coupled c Eq (bodyCode σ ss) (bodyCode σ' ss) := by
  induction ss with
  | nil => exact coupled_pure rfl
  | cons s ss ih => exact ((s.coupled h).locatedAt _).seq ih

theorem Coupling.Scopes.enter (h : c.Scopes σ σ') (f : String) : σ'.enter f = σ.enter f := by
  unfold Scope.enter
  rw [h.method, h.active]

/-- The scopes go together outside methods and inside each one that can be entered, and so do the
labels of methods. -/
structure Coupling.Entered (c : Coupling) (σ σ' : Scope) : Prop where
  main : c.Scopes σ σ'
  label : ∀ f, c.code [.label (methodLabel f)] [.label (methodLabel f)]
  inside : ∀ {f m}, σ.enter f = .ok m → c.Scopes (σ.inside m) (σ'.inside m)

theorem Method.coupled (h : c.Entered σ σ') (m : Method) :
    Coupled c Eq (m.code σ) (m.code σ') := by
  have henter : Coupled c (fun s s' => s' = s ∧ c.Scopes (σ.inside s) (σ'.inside s))
      (ofExcept (σ.enter m.name)) (ofExcept (σ'.enter m.name)) := by
    refine coupled_ofExcept ?_
    rw [h.main.enter]
    cases hs : σ.enter m.name with
    | error err => exact .inr ⟨err, rfl, rfl⟩
    | ok s => exact .inl ⟨s, s, rfl, rfl, rfl, h.inside hs⟩
  refine (henter.locatedAt m.location).bind ?_
  intro s s' hs
  obtain ⟨rfl, hin⟩ := hs
  have hstart : c.code (.label (methodLabel m.name) :: List.replicate s'.locals.length (.push 0))
      (.label (methodLabel m.name) :: List.replicate s'.locals.length (.push 0)) :=
    c.append (h.label m.name) (c.bare (by simp [Instruction.isBare]))
  exact (coupled_tell _).seq <| (coupled_emit hstart).seq <|
    (coupled_bodyCode hin m.body).seq (coupled_bare rfl)

theorem coupled_methodsCode (h : c.Entered σ σ') (ms : List Method) :
    Coupled c Eq (methodsCode σ ms) (methodsCode σ' ms) := by
  induction ms with
  | nil => exact coupled_pure rfl
  | cons m ms ih => exact (m.coupled h).seq ih

end

end Lpl
