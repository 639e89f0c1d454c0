import Lpl.Proofs.Sessions

/-!
# Generating code in place

**Theorem (`generate_frame`).** Generate the code of a tree in any session. Whether that succeeds or
breaks off, the code so far stays and lines are added behind it, which do not depend on it; labels and
scratch words are only added; and the method that was active is active again. A method that is entered
on the way is left on every way out.

An emitter is told its scope and gives back the lines that it adds. A `Generator` works in a session
instead, as a compiler does that keeps one table and one listing: each step appends to the code of the
session, looks names up in the scope that the session is in at that moment, and enters a method by
putting it there. Nothing in the form of a generator keeps it from leaving a method active or from
changing what is there already.

So generators are compared with emitters. In a scope `σ` a generator `Realizes` an emitter when it leaves
behind what the emitter emits, and the scope as it was. Every way to build a generator keeps this, and
the guard around a method does because a method can only be entered where none is active. So generating
the code of a tree is what the session does by its own operation, and the theorem reads its parts off.
-/

namespace Lpl

/-! ## Generators -/

/-- Changes a session, or stops with an error in the session of that moment. -/
abbrev Generator := EStateM CompileError Session

namespace Generator

variable {α : Type}

/-- Appends lines to the code. -/
def emit (code : Assembly) : Generator Unit := modify fun s => { s with code := s.code ++ code }

/-- Tells an event. -/
def tell (e : Event) : Generator Unit := modify fun s => { s with events := s.events ++ [e] }

/-- Asks the scope that the session is in. -/
def ask (f : Scope → Except CompileError α) : Generator α := fun s =>
  match f s.scope with
  | .ok a => .ok a s
  | .error e => .error e s

/-- Gives the location `l` to an error that has none. -/
def locatedAt (l : Location) (x : Generator α) : Generator α := fun s =>
  match x s with
  | .ok a s' => .ok a s'
  | .error e s' => .error (e.locatedAt l) s'

/-- Takes the label of a new place. -/
def fresh (stem : String) : Generator String := fun s =>
  let label := placeLabel stem s.labels.next
  .ok label { s with
    labels := { s.labels with next := s.labels.next + 1 }
    events := s.events ++ [.freshLabel label] }

/-- The label of a scratch word, which is used from now on. -/
def scratch (name : String) : Generator String := fun s =>
  .ok (scratchLabel name) { s with labels := s.labels.withScratch name }

/-- The labels of the scratch words used so far. -/
def scratchWords : Generator (List String) := fun s => .ok s.labels.scratch s

/-- Does `x` and then leaves whatever method is active, whether `x` succeeds or not. -/
def releasing (x : Generator Unit) : Generator Unit := fun s =>
  match x s with
  | .ok _ s' => .ok () { s' with scope := s'.scope.outside }
  | .error e s' => .error e { s' with scope := s'.scope.outside }

/-- Does `x` with the named method active. -/
def within (name : String) (l : Location) (x : Generator Unit) : Generator Unit := do
  let m ← locatedAt l (ask (Scope.enter · name))
  modify fun s => { s with scope := s.scope.inside m }
  releasing x

/-- The error if there is one, and the session at the end. -/
def outcome (x : Generator Unit) (s : Session) : Option CompileError × Session :=
  match x s with
  | .ok _ s' => (none, s')
  | .error e s' => (some e, s')

/-! ## The code of trees -/

/-- Generates the address of the variable that is named at location `l`. -/
def address (name : String) (l : Location) : Generator Unit := do
  let v ← locatedAt l (ask (Scope.resolve · name))
  let w ← ask fun σ => .ok σ.table.wordSize
  emit (v.place.address w)

/-- Generates a call of a declared method, given what generates its arguments. -/
def call (name : String) (l : Location) (argc : Nat) (args : Generator Unit) : Generator Unit := do
  let _ ← locatedAt l (ask fun σ => σ.table.method name)
  args
  emit [.push (.ofNat argc), .call (methodLabel name)]

/-- Fails if two cases have one value. -/
def checkCases (cs : List SwitchCase) : Generator Unit :=
  match duplicateCase? [] cs with
  | none => pure ()
  | some c => throw (.duplicate ("case " ++ toString c.value) .switchCases c.location)

/-- Takes a label for each case. -/
def caseLabels : List SwitchCase → Generator (List String)
  | [] => pure []
  | c :: cs => do
    let l ← fresh (caseStem c.value)
    return l :: (← caseLabels cs)

/-- The method that a `RETURN` at location `l` returns from. -/
def returning (l : Location) (σ : Scope) : Except CompileError Signature :=
  match σ.active with
  | none => .error (.misplaced .returnOutsideMethod l)
  | some m => .ok m

end Generator

open Generator

mutual

/-- Generates the code of an expression. -/
def Expr.generate : Expr → Generator Unit
  | .int v _ => emit [.push v]
  | .null _ => emit [.push 0]
  | .var x l => do
    address x l
    emit [.load]
  | .unary .not e _ => do
    e.generate
    emit [.testZ]
  | .unary .neg e _ => do
    emit [.push 0]
    e.generate
    emit [.sub]
  | .binary op a b _ => do
    a.generate
    emit op.afterLeft
    b.generate
    emit op.afterRight
  | .index x es l => do
    address x l
    Expr.generateElement es
    emit [.load]
  | .length e _ => do
    e.generate
    emit [.arrayLength]
  | .new es _ _ => do
    Expr.generateAll es
    emit [.newArray es.length]
  | .call f es l => Generator.call f l es.length (Expr.generateReversed es)

/-- Generates the code of expressions, the first one first. -/
def Expr.generateAll : List Expr → Generator Unit
  | [] => pure ()
  | e :: es => do
    e.generate
    Expr.generateAll es

/-- Generates the code of expressions, the last one first. -/
def Expr.generateReversed : List Expr → Generator Unit
  | [] => pure ()
  | e :: es => do
    Expr.generateReversed es
    e.generate

/-- Generates the way from the address of a reference to the address of an element. -/
def Expr.generateElement : List Expr → Generator Unit
  | [] => pure ()
  | e :: es => do
    emit [.load]
    e.generate
    emit [.arrayIndex]
    Expr.generateElement es

end

mutual

/-- Generates the code of a statement. -/
def Stmt.generate : Stmt → Generator Unit
  | .assign x e l => do
    address x l
    e.generate
    emit [.store]
  | .assignAt x es e l => do
    address x l
    Expr.generateElement es
    e.generate
    emit [.store]
  | .ifThen c s _ => do
    c.generate
    let done ← fresh "if_end"
    emit [.jumpIfZero done]
    s.generate
    emit [.label done]
  | .ifElse c s t _ => do
    c.generate
    let other ← fresh "if_else"
    let done ← fresh "if_end"
    emit [.jumpIfZero other]
    s.generate
    emit [.jump done, .label other]
    t.generate
    emit [.label done]
  | .whileDo c s _ => do
    let again ← fresh "while_start"
    let done ← fresh "while_end"
    emit [.label again]
    c.generate
    emit [.jumpIfZero done]
    s.generate
    emit [.jump again, .label done]
  | .switch e cs d _ => do
    Generator.checkCases cs
    let choice ← fresh "switch_dispatch"
    let done ← fresh "switch_end"
    let otherwise ← fresh "switch_default"
    let labels ← Generator.caseLabels cs
    emit [.jump choice]
    SwitchCase.generateAll done cs labels
    emit [.label choice]
    e.generate
    let word ← scratch "switch"
    emit (.storei word :: dispatch word cs labels)
    emit [.label otherwise]
    d.generate
    emit [.label done]
  | .block ss _ => Stmt.generateAll ss
  | .print k e _ => do
    e.generate
    emit k.code
  | .newline _ => emit newlineCode
  | .ret v l => do
    let m ← ask (returning l)
    if v.isNone ∧ m.isFunction then tell (.bareReturn m.name l.line)
    let size ← ask Scope.frameSize
    match v with
    | some e => e.generate
    | none => emit [.push 0]
    emit [.push (.ofNat size), .ret]
  | .call f es l => do
    Generator.call f l es.length (Expr.generateReversed es)
    let word ← scratch "discard"
    emit [.storei word]

/-- Generates the code of statements in order. -/
def Stmt.generateAll : List Stmt → Generator Unit
  | [] => pure ()
  | s :: ss => do
    s.generate
    Stmt.generateAll ss

/-- Generates the arms of a switch, each under its label and with a jump to `done` behind it. -/
def SwitchCase.generateAll (done : String) : List SwitchCase → List String → Generator Unit
  | .mk _ s _ :: cs, l :: ls => do
    emit [.label l]
    s.generate
    emit [.jump done]
    SwitchCase.generateAll done cs ls
  | _, _ => pure ()

end

/-- Generates the code of the statements of a body. -/
def generateBody : List Stmt → Generator Unit
  | [] => pure ()
  | s :: ss => do
    locatedAt s.location s.generate
    generateBody ss

/-- Generates the code of a method. The numbers of its locals and of the words of its frame are those of
the method that is active at that moment. -/
def Method.generate (m : Method) : Generator Unit :=
  within m.name m.location do
    tell (.compilingMethod m.name)
    emit [.label (methodLabel m.name)]
    let n ← ask Scope.localCount
    emit (List.replicate n (.push 0))
    generateBody m.body
    let size ← ask Scope.frameSize
    emit [.push 0, .push (.ofNat size), .ret]

/-- Generates the code of methods in order. -/
def generateMethods : List Method → Generator Unit
  | [] => pure ()
  | m :: ms => do
    m.generate
    generateMethods ms

/-- Generates the code of a program. -/
def Program.generate (p : Program) : Generator Unit := do
  generateBody p.body
  emit [.halt]
  generateMethods p.methods
  let globals ← ask fun σ => .ok σ.table.globals
  let words ← scratchWords
  emit (dataSegment (globals.map (fun d => variableLabel d.name) ++ words))

/-- Generates the code of a tree. -/
def Node.generate : Node → Generator Unit
  | program p => p.generate
  | method m => m.generate
  | stmt s => s.generate
  | expr e => e.generate

/-! ## Generators and emitters -/

section

variable {α β : Type}

/-- The session with the labels `labels`, and `code` and `events` added behind what is there. -/
def Session.after (s : Session) (labels : Labels) (code : Assembly) (events : List Event) : Session :=
  { s with labels := labels, code := s.code ++ code, events := s.events ++ events }

theorem Session.after_nil (s : Session) : s.after s.labels [] [] = s := by
  simp only [Session.after, List.append_nil]

theorem Session.after_after (s : Session) (ls ls' : Labels) (F F' : Assembly) (es es' : List Event) :
    (s.after ls F es).after ls' F' es' = s.after ls' (F ++ F') (es ++ es') := by
  simp only [Session.after, List.append_assoc]

/-- How a generator ends that adds the emission to the session `s`. -/
def Emission.endsIn (s : Session) (e : Emission α) : EStateM.Result CompileError Session α :=
  match e.result with
  | .ok a => .ok a (s.after e.labels e.code e.events)
  | .error err => .error err (s.after e.labels e.code e.events)

/-- In the scope `σ` the generator adds to the session what the emitter emits, and changes nothing else. -/
def Realizes (σ : Scope) (g : Generator α) (x : Emitter α) : Prop :=
  ∀ s, s.scope = σ → g s = (x.run s.labels).endsIn s

variable {σ : Scope} {g : Generator α} {x : Emitter α}

/-- What follows has to realize its emitter only for results that there are. -/
theorem Realizes.bind_of {k : α → Generator β} {y : α → Emitter β} (hg : Realizes σ g x)
    (hk : ∀ ls a, (x.run ls).result = .ok a → Realizes σ (k a) (y a)) :
    Realizes σ (g >>= k) (x >>= y) := by
  intro s hs
  have hk := hk s.labels
  revert hk
  show _ → EStateM.bind g k s = _
  rw [EStateM.bind, hg s hs, Emitter.run_bind]
  obtain ⟨result, labels, code, events⟩ := x.run s.labels
  intro hk
  cases result with
  | error e => rfl
  | ok a =>
    -- The scope is still `σ` where the second generator starts.
    have hrest : k a (s.after labels code events) = ((y a).run labels).endsIn _ :=
      hk a rfl (s.after labels code events) hs
    simp only [Emission.endsIn, Session.after_after] at hrest ⊢
    exact hrest

theorem Realizes.bind {k : α → Generator β} {y : α → Emitter β} (hg : Realizes σ g x)
    (hk : ∀ a, Realizes σ (k a) (y a)) : Realizes σ (g >>= k) (x >>= y) :=
  hg.bind_of fun _ a _ => hk a

theorem realizes_pure (a : α) : Realizes σ (pure a) (pure a) := by
  intro s hs
  show EStateM.Result.ok a s = .ok a (s.after s.labels [] [])
  rw [s.after_nil]

theorem realizes_emit (code : Assembly) : Realizes σ (Generator.emit code) (Emitter.emit code) := by
  intro s hs
  show EStateM.Result.ok () _ = .ok () (s.after s.labels code [])
  rw [Session.after, List.append_nil]

theorem realizes_tell (e : Event) : Realizes σ (Generator.tell e) (Emitter.tell e) := by
  intro s hs
  show EStateM.Result.ok () _ = .ok () (s.after s.labels [] [e])
  rw [Session.after, List.append_nil]

theorem realizes_ask (f : Scope → Except CompileError α) :
    Realizes σ (ask f) (Emitter.ofExcept (f σ)) := by
  intro s hs
  show ask f s = (Emission.mk (f σ) s.labels [] []).endsIn s
  rw [Emission.endsIn, s.after_nil, ask, hs]

theorem realizes_fail (e : CompileError) : Realizes σ (throw e : Generator α) (Emitter.fail e) :=
  realizes_ask fun _ => .error e

theorem Realizes.locatedAt (h : Realizes σ g x) (l : Location) :
    Realizes σ (Generator.locatedAt l g) (Emitter.locatedAt l x) := by
  intro s hs
  show Generator.locatedAt l g s =
    Emission.endsIn s { x.run s.labels with result := (x.run s.labels).result.mapError _ }
  rw [Generator.locatedAt, h s hs]
  obtain ⟨result, labels, code, events⟩ := x.run s.labels
  cases result <;> rfl

theorem realizes_fresh (stem : String) :
    Realizes σ (Generator.fresh stem) (Emitter.fresh stem) := by
  intro s hs
  show EStateM.Result.ok _ _ = .ok _ (s.after _ [] _)
  rw [Session.after, List.append_nil]
  rfl

theorem realizes_scratch (name : String) :
    Realizes σ (Generator.scratch name) (Emitter.scratch name) := by
  intro s hs
  show EStateM.Result.ok _ _ = .ok _ (s.after _ [] [])
  rw [Session.after, List.append_nil, List.append_nil]
  rfl

theorem realizes_scratchWords : Realizes σ Generator.scratchWords Emitter.scratchWords := by
  intro s hs
  show EStateM.Result.ok _ s = .ok _ (s.after s.labels [] [])
  rw [s.after_nil]

/-- A question that the scope answers adds nothing. -/
theorem Realizes.answered {f : Scope → Except CompileError α} {a : α} (h : f σ = .ok a)
    {k : α → Generator β} {y : Emitter β} (hk : Realizes σ (k a) y) : Realizes σ (ask f >>= k) y := by
  intro s hs
  show EStateM.bind (ask f) k s = _
  rw [EStateM.bind, ask, hs, h]
  exact hk s hs

/-- A question that the scope does not answer is the end. -/
theorem realizes_refused {f : Scope → Except CompileError α} {e : CompileError} (h : f σ = .error e)
    (k : α → Generator β) : Realizes σ (ask f >>= k) (Emitter.fail e) := by
  intro s hs
  show EStateM.bind (ask f) k s = EStateM.Result.error e (s.after s.labels [] [])
  rw [EStateM.bind, ask, hs, h, s.after_nil]

/-- Entered from a scope without an active method, a method is left for that scope. -/
theorem Realizes.releasing {g : Generator Unit} {x : Emitter Unit} {m : Signature} {s : Session}
    (hg : Realizes (s.scope.inside m) g x) (hs : s.scope.active = none) :
    Generator.releasing g { s with scope := s.scope.inside m } = (x.run s.labels).endsIn s := by
  have hout : (s.scope.inside m).outside = s.scope := by
    rw [Scope.inside, Scope.outside, ← hs]
  have hend : g { s with scope := s.scope.inside m } =
    (x.run s.labels).endsIn { s with scope := s.scope.inside m } := hg _ rfl
  rw [Generator.releasing, hend]
  obtain ⟨result, labels, code, events⟩ := x.run s.labels
  cases result <;> simp only [Emission.endsIn, Session.after, hout]

/-- A method can only be entered where none is active, so when it is left the scope is that of before. -/
theorem Realizes.within {g : Generator Unit} {x : Signature → Emitter Unit} {name : String}
    {l : Location} (hg : ∀ m, σ.enter name = .ok m → Realizes (σ.inside m) g (x m)) :
    Realizes σ (Generator.within name l g)
      (Emitter.locatedAt l (Emitter.ofExcept (σ.enter name)) >>= x) := by
  refine ((realizes_ask (Scope.enter · name)).locatedAt l).bind_of fun ls m hresult => ?_
  have hm : σ.enter name = .ok m :=
    ((emits_ofExcept _ _).1 ((emits_locatedAt _ _ _).1 (emits_self hresult))).1
  intro s hs
  subst hs
  exact (hg m hm).releasing (enter_eq_ok.1 hm).2

end

/-! ## Trees -/

theorem Scope.realizes_address (σ : Scope) (x : String) (l : Location) :
    Realizes σ (Generator.address x l) (σ.address x l) :=
  ((realizes_ask (Scope.resolve · x)).locatedAt l).bind fun _ =>
    .answered (f := fun σ => .ok σ.table.wordSize) rfl (realizes_emit _)

theorem Scope.realizes_call (σ : Scope) (f : String) (l : Location) (argc : Nat)
    {args : Generator Unit} {args' : Emitter Unit} (h : Realizes σ args args') :
    Realizes σ (Generator.call f l argc args) (σ.call f l argc args') :=
  ((realizes_ask fun σ => σ.table.method f).locatedAt l).bind fun _ => h.bind fun _ =>
    realizes_emit _

mutual

theorem Expr.realizes (σ : Scope) : (e : Expr) → Realizes σ e.generate (e.code σ)
  | .int _ _ | .null _ => realizes_emit _
  | .var x l => (σ.realizes_address x l).bind fun _ => realizes_emit _
  | .unary .not e _ => (Expr.realizes σ e).bind fun _ => realizes_emit _
  | .unary .neg e _ => (realizes_emit _).bind fun _ => (Expr.realizes σ e).bind fun _ =>
    realizes_emit _
  | .binary _ a b _ => (Expr.realizes σ a).bind fun _ => (realizes_emit _).bind fun _ =>
    (Expr.realizes σ b).bind fun _ => realizes_emit _
  | .index x es l => (σ.realizes_address x l).bind fun _ =>
    (Expr.realizes_element σ es).bind fun _ => realizes_emit _
  | .length e _ => (Expr.realizes σ e).bind fun _ => realizes_emit _
  | .new es _ _ => (Expr.realizes_all σ es).bind fun _ => realizes_emit _
  | .call f es l => σ.realizes_call f l es.length (Expr.realizes_reversed σ es)

theorem Expr.realizes_all (σ : Scope) :
    (es : List Expr) → Realizes σ (Expr.generateAll es) (Expr.codeAll σ es)
  | [] => realizes_pure ()
  | e :: es => (Expr.realizes σ e).bind fun _ => Expr.realizes_all σ es

theorem Expr.realizes_reversed (σ : Scope) :
    (es : List Expr) → Realizes σ (Expr.generateReversed es) (Expr.codeReversed σ es)
  | [] => realizes_pure ()
  | e :: es => (Expr.realizes_reversed σ es).bind fun _ => Expr.realizes σ e

theorem Expr.realizes_element (σ : Scope) :
    (es : List Expr) → Realizes σ (Expr.generateElement es) (Expr.elementAddress σ es)
  | [] => realizes_pure ()
  | e :: es => (realizes_emit _).bind fun _ => (Expr.realizes σ e).bind fun _ =>
    (realizes_emit _).bind fun _ => Expr.realizes_element σ es

end

section

variable {σ : Scope}

theorem realizes_checkCases (cs : List SwitchCase) :
    Realizes σ (Generator.checkCases cs) (checkCases cs) := by
  unfold Generator.checkCases checkCases
  cases duplicateCase? [] cs with
  | none => exact realizes_pure ()
  | some c => exact realizes_fail _

theorem realizes_caseLabels (cs : List SwitchCase) :
    Realizes σ (Generator.caseLabels cs) (caseLabels cs) := by
  induction cs with
  | nil => exact realizes_pure []
  | cons c cs ih => exact (realizes_fresh _).bind fun l => ih.bind fun ls => realizes_pure (l :: ls)

end

/-- The frame is asked for before the value is generated, and is still the same behind it. -/
theorem realizes_ret (σ : Scope) (v : Option Expr) (l : Location) :
    Realizes σ (Stmt.generate (.ret v l)) (Stmt.code σ (.ret v l)) := by
  unfold Stmt.generate Stmt.code
  cases hm : σ.active with
  | none => exact realizes_refused (by rw [returning, hm]) _
  | some m =>
    refine .answered (a := m) (by rw [returning, hm]) ?_
    have hsize : σ.frameSize = .ok m.frameSize := by rw [Scope.frameSize, hm]
    cases v with
    | some e => exact .answered hsize ((e.realizes σ).bind fun _ => realizes_emit _)
    | none =>
      have hrest : Realizes σ (ask Scope.frameSize >>= fun size => do
          emit [.push 0]
          emit [.push (.ofNat size), .ret]) _ :=
        .answered hsize ((realizes_emit _).bind fun _ => realizes_emit _)
      by_cases hf : m.isFunction
      · simp only [hf]
        exact (realizes_tell _).bind fun _ => hrest
      · simp only [hf]
        exact hrest

mutual

theorem Stmt.realizes (σ : Scope) : (s : Stmt) → Realizes σ s.generate (s.code σ)
  | .assign x e l => (σ.realizes_address x l).bind fun _ => (e.realizes σ).bind fun _ =>
    realizes_emit _
  | .assignAt x es e l => (σ.realizes_address x l).bind fun _ =>
    (Expr.realizes_element σ es).bind fun _ => (e.realizes σ).bind fun _ => realizes_emit _
  | .ifThen c s _ => (c.realizes σ).bind fun _ => (realizes_fresh _).bind fun _ =>
    (realizes_emit _).bind fun _ => (Stmt.realizes σ s).bind fun _ => realizes_emit _
  | .ifElse c s t _ => (c.realizes σ).bind fun _ => (realizes_fresh _).bind fun _ =>
    (realizes_fresh _).bind fun _ => (realizes_emit _).bind fun _ =>
    (Stmt.realizes σ s).bind fun _ => (realizes_emit _).bind fun _ =>
    (Stmt.realizes σ t).bind fun _ => realizes_emit _
  | .whileDo c s _ => (realizes_fresh _).bind fun _ => (realizes_fresh _).bind fun _ =>
    (realizes_emit _).bind fun _ => (c.realizes σ).bind fun _ => (realizes_emit _).bind fun _ =>
    (Stmt.realizes σ s).bind fun _ => realizes_emit _
  | .switch e cs d _ => (realizes_checkCases cs).bind fun _ => (realizes_fresh _).bind fun _ =>
    (realizes_fresh _).bind fun done => (realizes_fresh _).bind fun _ =>
    (realizes_caseLabels cs).bind fun labels => (realizes_emit _).bind fun _ =>
    (SwitchCase.realizes_all σ done cs labels).bind fun _ => (realizes_emit _).bind fun _ =>
    (e.realizes σ).bind fun _ => (realizes_scratch _).bind fun _ => (realizes_emit _).bind fun _ =>
    (realizes_emit _).bind fun _ => (Stmt.realizes σ d).bind fun _ => realizes_emit _
  | .block ss _ => Stmt.realizes_all σ ss
  | .print _ e _ => (e.realizes σ).bind fun _ => realizes_emit _
  | .newline _ => realizes_emit _
  | .ret v l => realizes_ret σ v l
  | .call f es l => (σ.realizes_call f l _ (Expr.realizes_reversed σ es)).bind fun _ =>
    (realizes_scratch _).bind fun _ => realizes_emit _

theorem Stmt.realizes_all (σ : Scope) :
    (ss : List Stmt) → Realizes σ (Stmt.generateAll ss) (Stmt.codeAll σ ss)
  | [] => realizes_pure ()
  | s :: ss => (Stmt.realizes σ s).bind fun _ => Stmt.realizes_all σ ss

theorem SwitchCase.realizes_all (σ : Scope) (done : String) :
    (cs : List SwitchCase) → (labels : List String) →
      Realizes σ (SwitchCase.generateAll done cs labels) (SwitchCase.codeAll σ done cs labels)
  | .mk _ s _ :: cs, _ :: labels => (realizes_emit _).bind fun _ => (Stmt.realizes σ s).bind fun _ =>
    (realizes_emit _).bind fun _ => SwitchCase.realizes_all σ done cs labels
  | [], _ | .mk _ _ _ :: _, [] => realizes_pure ()

end

theorem realizes_body (σ : Scope) (ss : List Stmt) :
    Realizes σ (generateBody ss) (bodyCode σ ss) := by
  induction ss with
  | nil => exact realizes_pure ()
  | cons s ss ih => exact ((s.realizes σ).locatedAt _).bind fun _ => ih

/-- The first of some lines may be emitted on its own. -/
theorem emit_cons_bind {β : Type} (i : Instruction) (F : Assembly) (k : Unit → Emitter β) :
    (Emitter.emit (i :: F) >>= k) = (Emitter.emit [i] >>= fun _ => Emitter.emit F >>= k) :=
  rfl

theorem Method.realizes (σ : Scope) (m : Method) : Realizes σ m.generate (m.code σ) := by
  refine Realizes.within fun s hs => (realizes_tell _).bind fun _ => ?_
  rw [emit_cons_bind]
  exact (realizes_emit _).bind fun _ => .answered (f := Scope.localCount) rfl <|
    (realizes_emit _).bind fun _ => (realizes_body (σ.inside s) m.body).bind fun _ =>
    .answered (f := Scope.frameSize) rfl (realizes_emit _)

theorem realizes_methods (σ : Scope) (ms : List Method) :
    Realizes σ (generateMethods ms) (methodsCode σ ms) := by
  induction ms with
  | nil => exact realizes_pure ()
  | cons m ms ih => exact (m.realizes σ).bind fun _ => ih

theorem Program.realizes (σ : Scope) (p : Program) : Realizes σ p.generate (p.code σ) :=
  (realizes_body σ p.body).bind fun _ => (realizes_emit _).bind fun _ =>
    (realizes_methods σ p.methods).bind fun _ => .answered (f := fun σ => .ok σ.table.globals) rfl <|
    realizes_scratchWords.bind fun _ => realizes_emit _

theorem Node.realizes (σ : Scope) : (node : Node) → Realizes σ node.generate (node.code σ)
  | program p => p.realizes σ
  | method m => m.realizes σ
  | stmt s => s.realizes σ
  | expr e => e.realizes σ

/-! ## The frame of code generation -/

/-- The error that an emission broke off with, if it did. -/
def Emission.error? {α : Type} (e : Emission α) : Option CompileError :=
  match e.result with
  | .ok _ => none
  | .error err => some err

/-- A generator ends as its emitter does, with the emission added to the session. -/
theorem Realizes.outcome {s : Session} {g : Generator Unit} {x : Emitter Unit}
    (h : Realizes s.scope g x) :
    g.outcome s = ((x.run s.labels).error?,
      s.after (x.run s.labels).labels (x.run s.labels).code (x.run s.labels).events) := by
  rw [Generator.outcome, h s rfl]
  obtain ⟨result, labels, code, events⟩ := x.run s.labels
  cases result <;> rfl

theorem Session.append_eq (s : Session) (x : Emitter Unit) :
    s.append x = (.emitted (x.run s.labels).code (x.run s.labels).error?,
      s.after (x.run s.labels).labels (x.run s.labels).code (x.run s.labels).events) := by
  unfold Session.append Emission.error?
  obtain ⟨result, labels, code, events⟩ := x.run s.labels
  cases result <;> rfl

/-- Where a method cannot be entered nothing is emitted. -/
theorem Method.code_of_enter_error {σ : Scope} {m : Method} {e : CompileError}
    (h : σ.enter m.name = .error e) (ls : Labels) : ((m.code σ).run ls).code = [] := by
  rw [Method.code, h]
  rfl

/-- Generating the code of a tree leaves the code so far as it is and does not depend on it, only adds
labels and scratch words, and gives up the method that it entered. -/
theorem generate_frame (node : Node) (s : Session) :
    ∃ error F s', node.generate.outcome s = (error, s') ∧
      s.step (.emit node) = (.emitted F error, s') ∧
      s'.code = s.code ++ F ∧
      (∀ code, node.generate.outcome { s with code := code } =
        (error, { s' with code := code ++ F })) ∧
      s.labels.next ≤ s'.labels.next ∧
      s.labels.scratch <+: s'.labels.scratch ∧
      s'.scope.table = s.scope.table ∧
      (∀ e, node = .expr e → s'.scope.active = s.scope.active) ∧
      (∀ t, node = .stmt t → s'.scope.active = s.scope.active) ∧
      (∀ m e, node = .method m → s.scope.enter m.name = .error e →
        s'.scope.active = s.scope.active ∧ F = []) ∧
      (∀ m sig, node = .method m → s.scope.enter m.name = .ok sig → s'.scope.active = none) ∧
      (∀ p, node = .program p → s.scope.active = none → s'.scope.active = none) := by
  have hnode : Realizes s.scope node.generate (node.code s.scope) := node.realizes s.scope
  have horderly := node.orderly s.scope s.labels
  refine ⟨_, _, _, hnode.outcome, s.append_eq _, rfl, fun code => ?_, horderly.next_le,
    horderly.scratch, rfl, fun _ _ => rfl, fun _ _ => rfl, ?_, ?_, fun _ _ h => h⟩
  · exact Realizes.outcome (s := { s with code := code }) hnode
  · intro m e hm henter
    subst hm
    exact ⟨rfl, Method.code_of_enter_error henter _⟩
  · intro m sig hm henter
    exact (enter_eq_ok.1 henter).2

/-- A method whose loop names a variable that nothing declares. -/
def brokenLoop : Method where
  name := "f"
  returnType := none
  params := []
  locals := [⟨"i", ⟨0⟩, ⟨1, 20⟩⟩]
  body := [.newline ⟨1, 24⟩, .whileDo (.var "i" ⟨1, 40⟩) (.assign "x" (.int 1 ⟨1, 48⟩) ⟨1, 44⟩) ⟨1, 33⟩]
  location := ⟨1, 1⟩

/-- A session on a table that declares it. -/
def beforeLoop : Session := { scope := ⟨⟨4, [], [brokenLoop.toSignature]⟩, none⟩, code := [.halt] }

/-- The code of the method up to the body of the loop. -/
def brokenLoopCode : Assembly :=
  [.label "$_f", .push 0, .push 10, .outChar, .label "$$_while_start_0", .getFp, .push (-4), .add, .load,
    .jumpIfZero "$$_while_end_1"]

/-- Its code breaks off inside the loop. The lines up to there are behind those of before, two labels
are taken, and `f` is not active. -/
theorem generate_frame_brokenLoop :
    ∃ s' : Session, (Node.method brokenLoop).generate.outcome beforeLoop =
        (some (.undeclared .var "x" (some ⟨1, 44⟩)), s') ∧
      s'.code = beforeLoop.code ++ brokenLoopCode ∧ s'.labels.next = 2 ∧ s'.scope.active = none := by
  obtain ⟨error, F, s', hs', -, -, -, -, -, -, -, -, -, hactive, -⟩ :=
    generate_frame (.method brokenLoop) beforeLoop
  have hvalue : ((Node.method brokenLoop).generate.outcome beforeLoop).1 =
        some (.undeclared .var "x" (some ⟨1, 44⟩)) ∧
      ((Node.method brokenLoop).generate.outcome beforeLoop).2.code =
        beforeLoop.code ++ brokenLoopCode ∧
      ((Node.method brokenLoop).generate.outcome beforeLoop).2.labels.next = 2 := by
    decide +kernel
  rw [hs'] at hvalue
  obtain ⟨rfl, hcode, hnext⟩ := hvalue
  exact ⟨s', hs', hcode, hnext, hactive brokenLoop brokenLoop.toSignature rfl rfl⟩

end Lpl
