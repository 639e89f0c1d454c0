import Lpl.Proofs.Emission
import Lpl.Proofs.Layout.Parsing

/-!
# Compiling trees without their locations

**Theorem (`compile_relaid`).** Two source texts that differ in blanks and comments between their tokens
compile to the same code, or both fail with errors that are the same but for their locations.

The table of a tree without locations, its code, and the errors on the way are those of the tree itself
with all locations forgotten. For emitters this is `Emitter.Erases`, which is kept by every way to build
one, like its counterpart for parsers.
-/

namespace Lpl

/-! ## What has locations -/

/-- The error with its location forgotten, though not that it has one. -/
def CompileError.unlocated : CompileError → CompileError
  | undeclared k x l => undeclared k x (l.map fun _ => .start)
  | duplicate x r l => duplicate x r (l.map fun _ => .start)
  | misplaced c l => misplaced c (l.map fun _ => .start)
  | layout f => layout f

/-- The failure with its location forgotten. -/
def Failure.unlocated : Failure → Failure
  | parse e => parse e.unlocated
  | compile e => compile e.unlocated
  | io text => io text

/-- The event with the line of a declaration or a statement forgotten. -/
def Event.unlocated : Event → Event
  | hidesGlobal m x _ => hidesGlobal m x Location.start.line
  | bareReturn m _ => bareReturn m Location.start.line
  | e => e

def Signature.unlocated (m : Signature) : Signature :=
  { m with params := m.params.map Decl.unlocated, locals := m.locals.map Decl.unlocated }

def Table.unlocated (t : Table) : Table :=
  { t with globals := t.globals.map Decl.unlocated, methods := t.methods.map Signature.unlocated }

def Scope.unlocated (σ : Scope) : Scope := ⟨σ.table.unlocated, σ.active.map Signature.unlocated⟩

/-- The result with `f` applied, or the error with its location forgotten. -/
def unlocatedResult {α β : Type} (f : α → β) : Except CompileError α → Except CompileError β
  | .ok a => .ok (f a)
  | .error e => .error e.unlocated

@[simp] theorem Decl.name_unlocated (d : Decl) : d.unlocated.name = d.name := rfl

theorem CompileError.unlocated_locatedAt (l : Location) (e : CompileError) :
    (e.locatedAt l).unlocated = e.unlocated.locatedAt .start := by
  cases e with
  | undeclared _ _ l' | duplicate _ _ l' | misplaced _ l' => cases l' <;> rfl
  | layout f => rfl

/-! ## Tables -/

namespace Logged

variable {α β γ δ : Type}

/-- The log `y` is that of `x` with locations forgotten and `f` applied to the result. -/
def Erases (f : α → β) (x : Logged CompileError α) (y : Logged CompileError β) : Prop :=
  y = ⟨unlocatedResult f x.result, x.events.map Event.unlocated⟩

theorem Erases.bind {f : α → β} {g : γ → δ} {x : Logged CompileError α} {y : Logged CompileError β}
    {k : α → Logged CompileError γ} {k' : β → Logged CompileError δ} (hx : Erases f x y)
    (hk : ∀ a, Erases g (k a) (k' (f a))) : Erases g (x >>= k) (y >>= k') := by
  subst hx
  obtain ⟨result, events⟩ := x
  cases result with
  | error e => rfl
  | ok a =>
    show Logged.mk (k' (f a)).result (events.map Event.unlocated ++ (k' (f a)).events) =
      ⟨unlocatedResult g (k a).result, (events ++ (k a).events).map Event.unlocated⟩
    rw [hk a, List.map_append]

theorem result_bind {ε : Type} (x : Logged ε α) (k : α → Logged ε β) :
    (x.bind k).result = x.result.bind fun a => (k a).result := by
  unfold Logged.bind
  cases x.result <;> rfl

theorem erases_ofExcept {f : α → β} {x : Except CompileError α} {y : Except CompileError β}
    (h : y = unlocatedResult f x) : Erases f (ofExcept x) (ofExcept y) :=
  congrArg ofExcept h

theorem erases_pure {f : α → β} (a : α) : Erases f (pure a) (pure (f a)) := rfl

theorem erases_return {f : α → β} {a : α} {b : β} (h : f a = b) : Erases f (pure a) (pure b) :=
  h ▸ erases_pure a

theorem erases_tell (es : List Event) : Erases id (tell es) (tell (es.map Event.unlocated)) := rfl

end Logged

namespace Table

theorem declares_unlocated {ds : List Decl} {x : String} :
    Declares (ds.map Decl.unlocated) x ↔ Declares ds x := by
  simp [Declares]

theorem checkGlobals_unlocated (w : Nat) (earlier ds : List Decl) :
    checkGlobals w (earlier.map Decl.unlocated) (ds.map Decl.unlocated) =
      unlocatedResult id (checkGlobals w earlier ds) := by
  induction ds generalizing earlier with
  | nil => rfl
  | cons d ds ih =>
    have htail := ih (earlier ++ [d])
    rw [List.map_append] at htail
    simp only [List.map_cons, checkGlobals, Decl.name_unlocated, declares_unlocated, List.length_map]
    split
    · rfl
    · split
      · exact htail
      · rfl

theorem checkSlots_unlocated (w : Nat) (region : CompileError.Region) (earlier ds : List Decl) :
    checkSlots w region (earlier.map Decl.unlocated) (ds.map Decl.unlocated) =
      unlocatedResult id (checkSlots w region earlier ds) := by
  induction ds generalizing earlier with
  | nil => rfl
  | cons d ds ih =>
    have htail := ih (earlier ++ [d])
    rw [List.map_append] at htail
    simp only [List.map_cons, checkSlots, Decl.name_unlocated, declares_unlocated, List.length_map]
    split
    · rfl
    · split
      · rfl
      · exact htail

theorem shadowing_unlocated (globals : List Decl) (m : Signature) :
    shadowing (globals.map Decl.unlocated) m.unlocated =
      (shadowing globals m).map Decl.unlocated := by
  simp only [shadowing, Signature.unlocated, ← List.map_append, List.filter_map]
  congr 2
  funext d
  exact decide_eq_decide.2 declares_unlocated

theorem erases_checkMethod (w : Nat) (globals : List Decl) (policy : Shadowing) (m : Signature) :
    Logged.Erases id (checkMethod w globals policy m)
      (checkMethod w (globals.map Decl.unlocated) policy m.unlocated) := by
  refine (Logged.erases_ofExcept (checkSlots_unlocated w _ [] _)).bind fun _ =>
    (Logged.erases_ofExcept (checkSlots_unlocated w _ [] _)).bind fun _ => ?_
  have hfind : (m.unlocated.locals.find? fun d => Declares m.unlocated.params d.name) =
      (m.locals.find? fun d => Declares m.params d.name).map Decl.unlocated := by
    show ((m.locals.map Decl.unlocated).find? _) = _
    rw [List.find?_map]
    congr 2
    funext d
    exact decide_eq_decide.2 declares_unlocated
  rw [hfind, shadowing_unlocated]
  cases m.locals.find? fun d => Declares m.params d.name with
  | some d => exact Logged.erases_ofExcept rfl
  | none =>
    cases policy with
    | allow => exact Logged.erases_pure ()
    | warn =>
      simp only [Option.map_none, Logged.Erases, Logged.tell, List.map_map]
      rfl
    | reject =>
      cases shadowing globals m with
      | nil => exact Logged.erases_pure ()
      | cons d ds => exact Logged.erases_ofExcept rfl

theorem erases_checkMethods (w : Nat) (globals : List Decl) (policy : Shadowing)
    (earlier : List String) (ms : List Method) :
    Logged.Erases id (checkMethods w globals policy earlier ms)
      (checkMethods w (globals.map Decl.unlocated) policy earlier (ms.map Method.unlocated)) := by
  induction ms generalizing earlier with
  | nil => exact Logged.erases_pure ()
  | cons m ms ih =>
    show Logged.Erases id (if m.name ∈ earlier then _ else _) (if m.name ∈ earlier then _ else _)
    split
    · exact Logged.erases_ofExcept rfl
    · exact (erases_checkMethod w globals policy m.toSignature).bind fun _ => ih _

theorem erases_ofProgram (s : Settings) (p : Program) :
    Logged.Erases Table.unlocated (ofProgram s p) (ofProgram s p.unlocated) := by
  unfold ofProgram
  split
  · refine (Logged.erases_ofExcept (checkGlobals_unlocated _ [] p.globals)).bind fun _ =>
      (erases_checkMethods _ p.globals s.shadowing [] p.methods).bind fun _ => ?_
    simp only [Program.unlocated, List.length_map]
    refine (Logged.erases_tell _).bind fun _ => ?_
    rw [List.map_map]
    exact Logged.erases_return (by simp [Table.unlocated, Function.comp_def, Method.unlocated, Signature.unlocated])
  · exact Logged.erases_ofExcept rfl

/-! ## Names -/

end Table

namespace Scope

theorem slot?_unlocated (x : String) (ds : List Decl) :
    slot? x (ds.map Decl.unlocated) = slot? x ds := by
  induction ds with
  | nil => rfl
  | cons d ds ih =>
    rw [List.map_cons, slot?, slot?, ih]
    rfl

theorem find?_unlocated (σ : Scope) (x : String) : σ.unlocated.find? x = σ.find? x := by
  obtain ⟨t, _ | m⟩ := σ <;>
    simp [find?, Scope.unlocated, Table.unlocated, Signature.unlocated, global?, inMethod?, slot?_unlocated]

theorem resolve_unlocated (σ : Scope) (x : String) :
    σ.unlocated.resolve x = unlocatedResult id (σ.resolve x) := by
  unfold resolve
  rw [find?_unlocated]
  cases σ.find? x <;> rfl

end Scope

theorem Table.method_unlocated (t : Table) (f : String) :
    t.unlocated.method f = unlocatedResult Signature.unlocated (t.method f) := by
  have hfind : t.unlocated.method? f = (t.method? f).map Signature.unlocated := by
    show ((t.methods.map Signature.unlocated).find? _) = _
    rw [List.find?_map]
    rfl
  unfold method
  rw [hfind]
  cases t.method? f <;> rfl

theorem Scope.enter_unlocated (σ : Scope) (f : String) :
    σ.unlocated.enter f = unlocatedResult Signature.unlocated (σ.enter f) := by
  have hmethod : σ.unlocated.table.method f = _ := σ.table.method_unlocated f
  unfold enter
  rw [hmethod]
  obtain ⟨t, active⟩ := σ
  cases t.method f with
  | error e => rfl
  | ok m => cases active <;> rfl

/-! ## Emitters -/

/-- The emission with locations forgotten and `f` applied to the result. -/
def Emission.unlocated {α β : Type} (f : α → β) (e : Emission α) : Emission β :=
  ⟨unlocatedResult f e.result, e.labels, e.code, e.events.map Event.unlocated⟩

namespace Emitter

variable {α β γ δ : Type}

/-- The emitter `y` does what `x` does, with locations forgotten and `f` applied to the result. -/
def Erases (f : α → β) (x : Emitter α) (y : Emitter β) : Prop :=
  ∀ ls, y.run ls = (x.run ls).unlocated f

section Combinators

variable {f : α → β} {g : γ → δ} {x : Emitter α} {y : Emitter β}

theorem Erases.bind {k : α → Emitter γ} {k' : β → Emitter δ} (hx : Erases f x y)
    (hk : ∀ a, Erases g (k a) (k' (f a))) : Erases g (x >>= k) (y >>= k') := by
  intro ls
  rw [run_bind, run_bind, hx ls]
  obtain ⟨result, labels, code, events⟩ := x.run ls
  cases result with
  | error e => rfl
  | ok a =>
    have hk := hk a labels
    simp only [Emission.unlocated, unlocatedResult, hk, List.map_append]

theorem erases_ofExcept {r : Except CompileError α} {r' : Except CompileError β}
    (h : r' = unlocatedResult f r) : Erases f (ofExcept r) (ofExcept r') := fun _ => by
  rw [h]
  rfl

theorem erases_pure (a : α) : Erases f (pure a) (pure (f a)) := fun _ => rfl

theorem erases_emit (code : Assembly) : Erases id (emit code) (emit code) := fun _ => rfl

theorem erases_tell (e : Event) : Erases id (tell e) (tell e.unlocated) := fun _ => rfl

theorem erases_fail (e : CompileError) : Erases f (fail e) (fail e.unlocated) := fun _ => rfl

theorem Erases.locatedAt (h : Erases f x y) (l : Location) :
    Erases f (locatedAt l x) (locatedAt .start y) := by
  intro ls
  show { y.run ls with result := (y.run ls).result.mapError (CompileError.locatedAt .start) } =
    Emission.unlocated f { x.run ls with result := (x.run ls).result.mapError (.locatedAt l) }
  rw [h ls]
  obtain ⟨result, labels, code, events⟩ := x.run ls
  cases result with
  | ok a => rfl
  | error e =>
    show (⟨.error _, labels, code, _⟩ : Emission β) = ⟨.error (e.locatedAt l).unlocated, labels, code, _⟩
    rw [e.unlocated_locatedAt l]
    rfl

theorem erases_fresh (stem : String) : Erases id (fresh stem) (fresh stem) := fun _ => rfl

theorem erases_scratch (name : String) : Erases id (scratch name) (scratch name) := fun _ => rfl

theorem erases_scratchWords : Erases id scratchWords scratchWords := fun _ => rfl

end Combinators

end Emitter

open Emitter

theorem Scope.erases_address (σ : Scope) (x : String) (l : Location) :
    Erases id (σ.address x l) (σ.unlocated.address x .start) :=
  ((erases_ofExcept (σ.resolve_unlocated x)).locatedAt l).bind fun v =>
    erases_emit (v.place.address σ.table.wordSize)

theorem Scope.erases_call (σ : Scope) (f : String) (l : Location) (argc : Nat)
    {args args' : Emitter Unit} (h : Erases id args args') :
    Erases id (σ.call f l argc args) (σ.unlocated.call f .start argc args') :=
  ((erases_ofExcept (σ.table.method_unlocated f)).locatedAt l).bind fun _ => h.bind fun _ =>
    erases_emit _

mutual

theorem Expr.erases (σ : Scope) : (e : Expr) → Erases id (e.code σ) (e.unlocated.code σ.unlocated)
  | .int _ _ | .null _ => erases_emit _
  | .var x l => (σ.erases_address x l).bind fun _ => erases_emit _
  | .unary .not e _ => (Expr.erases σ e).bind fun _ => erases_emit _
  | .unary .neg e _ => (erases_emit _).bind fun _ => (Expr.erases σ e).bind fun _ => erases_emit _
  | .binary op a b _ => (Expr.erases σ a).bind fun _ => (erases_emit _).bind fun _ =>
    (Expr.erases σ b).bind fun _ => erases_emit _
  | .index x es l => (σ.erases_address x l).bind fun _ => (Expr.erases_element σ es).bind fun _ =>
    erases_emit _
  | .length e _ => (Expr.erases σ e).bind fun _ => erases_emit _
  | .new es _ _ => by
    have hlength : (Expr.unlocatedAll es).length = es.length := by simp
    rw [Expr.unlocated, Expr.code, Expr.code, hlength]
    exact (Expr.erases_all σ es).bind fun _ => erases_emit _
  | .call f es l => by
    have hlength : (Expr.unlocatedAll es).length = es.length := by simp
    rw [Expr.unlocated, Expr.code, Expr.code, hlength]
    exact σ.erases_call f l es.length (Expr.erases_reversed σ es)

theorem Expr.erases_all (σ : Scope) :
    (es : List Expr) → Erases id (Expr.codeAll σ es) (Expr.codeAll σ.unlocated (Expr.unlocatedAll es))
  | [] => erases_pure ()
  | e :: es => (Expr.erases σ e).bind fun _ => Expr.erases_all σ es

theorem Expr.erases_reversed (σ : Scope) :
    (es : List Expr) →
      Erases id (Expr.codeReversed σ es) (Expr.codeReversed σ.unlocated (Expr.unlocatedAll es))
  | [] => erases_pure ()
  | e :: es => (Expr.erases_reversed σ es).bind fun _ => Expr.erases σ e

theorem Expr.erases_element (σ : Scope) :
    (es : List Expr) →
      Erases id (Expr.elementAddress σ es) (Expr.elementAddress σ.unlocated (Expr.unlocatedAll es))
  | [] => erases_pure ()
  | e :: es => (erases_emit _).bind fun _ => (Expr.erases σ e).bind fun _ =>
    (erases_emit _).bind fun _ => Expr.erases_element σ es

end

theorem duplicateCase?_unlocated (earlier : List Int32) (cs : List SwitchCase) :
    duplicateCase? earlier (cs.map SwitchCase.unlocated) =
      (duplicateCase? earlier cs).map SwitchCase.unlocated := by
  induction cs generalizing earlier with
  | nil => rfl
  | cons c cs ih =>
    show (if c.value ∈ earlier then _ else _) = Option.map _ (if c.value ∈ earlier then _ else _)
    split
    · rfl
    · exact ih _

theorem erases_checkCases (cs : List SwitchCase) :
    Erases id (checkCases cs) (checkCases (cs.map SwitchCase.unlocated)) := by
  unfold checkCases
  rw [duplicateCase?_unlocated]
  cases duplicateCase? [] cs with
  | none => exact erases_pure ()
  | some c => exact erases_fail _

theorem erases_caseLabels (cs : List SwitchCase) :
    Erases id (caseLabels cs) (caseLabels (cs.map SwitchCase.unlocated)) := by
  induction cs with
  | nil => exact erases_pure []
  | cons c cs ih => exact (erases_fresh _).bind fun l => ih.bind fun ls => erases_pure (l :: ls)

theorem dispatch_unlocated (word : String) (cs : List SwitchCase) (labels : List String) :
    dispatch word (cs.map SwitchCase.unlocated) labels = dispatch word cs labels := by
  rw [dispatch, dispatch, List.zip_map_left, List.flatMap_map]
  rfl

mutual

theorem Stmt.erases (σ : Scope) : (s : Stmt) → Erases id (s.code σ) (s.unlocated.code σ.unlocated)
  | .assign x e l => (σ.erases_address x l).bind fun _ => (e.erases σ).bind fun _ => erases_emit _
  | .assignAt x es e l => by
    have hes := Expr.erases_element σ es
    rw [Expr.unlocatedAll_eq_map] at hes
    exact (σ.erases_address x l).bind fun _ => hes.bind fun _ => (e.erases σ).bind fun _ =>
      erases_emit _
  | .ifThen c s _ => (c.erases σ).bind fun _ => (erases_fresh _).bind fun _ =>
    (erases_emit _).bind fun _ => (Stmt.erases σ s).bind fun _ => erases_emit _
  | .ifElse c s t _ => (c.erases σ).bind fun _ => (erases_fresh _).bind fun _ =>
    (erases_fresh _).bind fun _ => (erases_emit _).bind fun _ => (Stmt.erases σ s).bind fun _ =>
    (erases_emit _).bind fun _ => (Stmt.erases σ t).bind fun _ => erases_emit _
  | .whileDo c s _ => (erases_fresh _).bind fun _ => (erases_fresh _).bind fun _ =>
    (erases_emit _).bind fun _ => (c.erases σ).bind fun _ => (erases_emit _).bind fun _ =>
    (Stmt.erases σ s).bind fun _ => erases_emit _
  | .switch e cs d _ => by
    have harms := fun done labels => SwitchCase.erases_all σ done cs labels
    have hd := Stmt.erases σ d
    simp only [Stmt.unlocated, SwitchCase.unlocatedAll_eq_map, Stmt.code, dispatch_unlocated] at harms ⊢
    exact (erases_checkCases cs).bind fun _ => (erases_fresh _).bind fun _ =>
      (erases_fresh _).bind fun done => (erases_fresh _).bind fun _ =>
      (erases_caseLabels cs).bind fun labels => (erases_emit _).bind fun _ =>
      (harms done labels).bind fun _ => (erases_emit _).bind fun _ => (e.erases σ).bind fun _ =>
      (erases_scratch _).bind fun _ => (erases_emit _).bind fun _ => (erases_emit _).bind fun _ =>
      hd.bind fun _ => erases_emit _
  | .block ss _ => Stmt.erases_all σ ss
  | .print k e _ => (e.erases σ).bind fun _ => erases_emit _
  | .newline _ => erases_emit _
  | .ret v l => by
    have hactive : σ.unlocated.active = σ.active.map Signature.unlocated := rfl
    cases hm : σ.active with
    | none =>
      simp only [Stmt.unlocated, Stmt.code, hactive, hm]
      exact erases_fail _
    | some m =>
      have hsize : m.unlocated.frameSize = m.frameSize := by
        simp [Signature.frameSize, Signature.unlocated]
      cases v with
      | some e =>
        simp only [Stmt.unlocated, Stmt.code, hactive, hm, Option.map_some, hsize]
        exact (e.erases σ).bind fun _ => erases_emit _
      | none =>
        simp only [Stmt.unlocated, Stmt.code, hactive, hm, Option.map_some, Option.map_none, hsize]
        show Erases id (if m.isFunction then _ else _) (if m.isFunction then _ else _)
        split
        · exact (erases_tell _).bind fun _ => (erases_emit _).bind fun _ => erases_emit _
        · exact (erases_emit _).bind fun _ => erases_emit _
  | .call f es l => by
    have hes := Expr.erases_reversed σ es
    simp only [Expr.unlocatedAll_eq_map] at hes
    simp only [Stmt.unlocated, Stmt.code, List.length_map]
    exact (σ.erases_call f l es.length hes).bind fun _ => (erases_scratch _).bind fun _ =>
      erases_emit _

theorem Stmt.erases_all (σ : Scope) :
    (ss : List Stmt) → Erases id (Stmt.codeAll σ ss) (Stmt.codeAll σ.unlocated (Stmt.unlocatedAll ss))
  | [] => erases_pure ()
  | s :: ss => (Stmt.erases σ s).bind fun _ => Stmt.erases_all σ ss

theorem SwitchCase.erases_all (σ : Scope) (done : String) :
    (cs : List SwitchCase) → (labels : List String) →
      Erases id (SwitchCase.codeAll σ done cs labels)
        (SwitchCase.codeAll σ.unlocated done (SwitchCase.unlocatedAll cs) labels)
  | .mk _ s _ :: cs, _ :: labels => (erases_emit _).bind fun _ => (Stmt.erases σ s).bind fun _ =>
    (erases_emit _).bind fun _ => SwitchCase.erases_all σ done cs labels
  | [], _ | .mk _ _ _ :: _, [] => erases_pure ()

end

/-! ## Programs -/

theorem erases_bodyCode (σ : Scope) (ss : List Stmt) :
    Erases id (bodyCode σ ss) (bodyCode σ.unlocated (ss.map Stmt.unlocated)) := by
  induction ss with
  | nil => exact erases_pure ()
  | cons s ss ih =>
    have hlocation : s.unlocated.location = .start := by cases s <;> rfl
    rw [List.map_cons, bodyCode, bodyCode, hlocation]
    exact ((s.erases σ).locatedAt _).bind fun _ => ih

theorem Method.erases (σ : Scope) (m : Method) :
    Erases id (m.code σ) (m.unlocated.code σ.unlocated) := by
  refine ((erases_ofExcept (σ.enter_unlocated m.name)).locatedAt m.location).bind fun s =>
    (erases_tell _).bind fun _ => ?_
  have hlocals : s.unlocated.locals.length = s.locals.length := by simp [Signature.unlocated]
  have hsize : s.unlocated.frameSize = s.frameSize := by
    simp [Signature.frameSize, Signature.unlocated]
  rw [hlocals, hsize]
  exact (erases_emit _).bind fun _ => (erases_bodyCode (σ.inside s) m.body).bind fun _ => erases_emit _

theorem erases_methodsCode (σ : Scope) (ms : List Method) :
    Erases id (methodsCode σ ms) (methodsCode σ.unlocated (ms.map Method.unlocated)) := by
  induction ms with
  | nil => exact erases_pure ()
  | cons m ms ih => exact (m.erases σ).bind fun _ => ih

theorem Program.erases (σ : Scope) (p : Program) :
    Erases id (p.code σ) (p.unlocated.code σ.unlocated) := by
  have hlabels : σ.unlocated.table.globals.map (fun d => variableLabel d.name) =
      σ.table.globals.map fun d => variableLabel d.name := by
    simp [Scope.unlocated, Table.unlocated]
  unfold Program.code
  rw [hlabels]
  exact (erases_bodyCode σ p.body).bind fun _ => (erases_emit _).bind fun _ =>
    (erases_methodsCode σ p.methods).bind fun _ => erases_scratchWords.bind fun _ => erases_emit _

theorem Emitter.erases_assembly {x y : Emitter Unit} (h : Erases id x y) :
    Logged.Erases id x.assembly y.assembly := by
  unfold Logged.Erases Emitter.assembly
  rw [h {}]
  obtain ⟨result, labels, code, events⟩ := x.run {}
  cases result <;> rfl

/-- Locations decide nothing when a tree is compiled. -/
theorem Program.erases_compile (s : Settings) (p : Program) :
    Logged.Erases id (p.compile s) (p.unlocated.compile s) :=
  (Table.erases_ofProgram s p).bind fun t => (erases_assembly (p.erases ⟨t, none⟩)).bind fun code =>
    (Logged.erases_tell [.generated code.length]).bind fun _ => Logged.erases_pure code

/-! ## Source texts -/

namespace TokenStream

/-- What compiling the program of a stream results in. -/
def outcome (s : Settings) (stream : TokenStream) : Except Failure Assembly :=
  match Parser.program stream with
  | .ok p _ => (p.compile s).result.mapError .compile
  | .error e _ => .error (.parse e)

theorem outcome_unlocated (s : Settings) (stream : TokenStream) :
    stream.unlocated.outcome s = (stream.outcome s).mapError Failure.unlocated := by
  unfold outcome
  rw [Parser.program_unlocated stream]
  cases Parser.program stream with
  | error e _ => rfl
  | ok p _ =>
    have hcompile : p.unlocated.compile s = _ := p.erases_compile s
    simp only [hcompile]
    cases (p.compile s).result <;> rfl

theorem unlocated_ofTokens {ts ts' : List Token}
    (h : ts'.map Token.unlocated = ts.map Token.unlocated) :
    (ofTokens ts').unlocated = (ofTokens ts).unlocated := by
  -- What is cut off at the end of file, and that end, can be told without locations.
  have hstream : ∀ us : List Token, (ofTokens us).unlocated =
      ⟨(us.map Token.unlocated).takeWhile (·.kind ≠ .eof),
        ((us.map Token.unlocated).find? (·.kind = .eof)).getD (.endOfFile .start)⟩ := by
    intro us
    have hend : (endOf us).unlocated =
        ((us.find? (·.kind = .eof)).map Token.unlocated).getD (.endOfFile .start) := by
      unfold endOf
      cases us.find? (·.kind = .eof) <;> rfl
    rw [List.takeWhile_map, List.find?_map]
    exact congrArg (TokenStream.mk _) hend
  rw [hstream, hstream, h]

end TokenStream

theorem result_compile {s : Settings} {source : String} {ts : List Token}
    (h : tokenize source = .ok ts) :
    (compile s source).result = (TokenStream.ofTokens ts).outcome s := by
  have hsource : TokenStream.ofSource source = .ok (.ofTokens ts) := by rw [TokenStream.ofSource, h]
  unfold compile TokenStream.outcome
  rw [hsource]
  show (Logged.bind (Logged.mapError _ (Logged.bind (.ofExcept (.ok _)) TokenStream.program)) _).result = _
  rw [Logged.result_bind, Logged.mapError, Logged.result_bind]
  show (Except.mapError _ (TokenStream.program (.ofTokens ts)).result).bind _ = _
  unfold TokenStream.program
  cases Parser.program (.ofTokens ts) <;> rfl

/-- Two results are the same, but for the locations of errors. -/
theorem same_of_mapError_eq {r r' : Except Failure Assembly}
    (h : r'.mapError Failure.unlocated = r.mapError Failure.unlocated) :
    (∃ code, r = .ok code ∧ r' = .ok code) ∨
      ∃ e e', r = .error e ∧ r' = .error e' ∧ e'.unlocated = e.unlocated := by
  cases r with
  | ok code =>
    cases r' with
    | ok code' => exact .inl ⟨code, rfl, congrArg _ (Except.ok.inj h)⟩
    | error e' => cases h
  | error e =>
    cases r' with
    | ok code' => cases h
    | error e' => exact .inr ⟨e, e', rfl, rfl, Except.error.inj h⟩

/-- Texts that differ in the blanks and comments between their tokens compile to the same code, or fail
with the same error but for its location. -/
theorem compile_relaid (s : Settings) {source source' : String}
    (h : Lexing.Relaid Lexing.Leading source.toList source'.toList) :
    (∃ code, (compile s source).result = .ok code ∧ (compile s source').result = .ok code) ∨
      ∃ e e', (compile s source).result = .error e ∧ (compile s source').result = .error e' ∧
        e'.unlocated = e.unlocated := by
  obtain ⟨ts, ts', hts, hts', heq⟩ := h.tokenize
  refine same_of_mapError_eq ?_
  rw [result_compile hts, result_compile hts', ← TokenStream.outcome_unlocated,
    ← TokenStream.outcome_unlocated, TokenStream.unlocated_ofTokens heq]

theorem compile_relaid_loose :
    Lexing.Relaid Lexing.Leading Lexing.tight.toList Lexing.loose.toList ∧
      ∃ e e', (compile {} Lexing.tight).result = .error e ∧
        (compile {} Lexing.loose).result = .error e' ∧ e'.unlocated = e.unlocated ∧
        e = .compile (.misplaced .returnOutsideMethod (some ⟨1, 7⟩)) ∧
        e' = .compile (.misplaced .returnOutsideMethod (some ⟨4, 1⟩)) := by
  have herrors : (compile {} Lexing.tight).error? =
        some (.compile (.misplaced .returnOutsideMethod (some ⟨1, 7⟩))) ∧
      (compile {} Lexing.loose).error? =
        some (.compile (.misplaced .returnOutsideMethod (some ⟨4, 1⟩))) := by
    decide +kernel
  obtain ⟨htight, hloose⟩ := herrors
  rw [Logged.error?_eq_some] at htight hloose
  refine ⟨Lexing.relaid_loose, ?_⟩
  obtain ⟨code, hcode, -⟩ | ⟨e, e', he, he', hsame⟩ := compile_relaid {} Lexing.relaid_loose
  · cases hcode.symm.trans htight
  · exact ⟨e, e', he, he', hsame, Except.error.inj (he.symm.trans htight),
      Except.error.inj (he'.symm.trans hloose)⟩

end Lpl
