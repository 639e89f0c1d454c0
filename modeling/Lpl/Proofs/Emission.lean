import Lpl.Compilation
import Lpl.Proofs.Declarations

/-!
# What an emitter emits

`Emits x ls a F ls'`: run on the labels `ls`, the emitter `x` succeeds with `a`, emits the code `F`
and leaves the labels `ls'`. There is one lemma for each way to build an emitter, so the code of a
construct comes apart without unfolding the emitter.

The code of an expression takes no labels. `Expr.code_induction` and `Stmt.code_induction` turn the
code generator into rules: a property that each rule keeps holds of all emitted code.
-/

namespace Lpl

/-- Run on `ls`, the emitter succeeds with `a`, emits `F` and leaves the labels `ls'`. -/
def Emits {α : Type} (x : Emitter α) (ls : Labels) (a : α) (F : Assembly) (ls' : Labels) : Prop :=
  (x.run ls).result = .ok a ∧ (x.run ls).code = F ∧ (x.run ls).labels = ls'

section Combinators

variable {α β : Type} {ls ls' : Labels} {F : Assembly}

theorem Emitter.run_bind (x : Emitter α) (f : α → Emitter β) (ls : Labels) :
    (x >>= f).run ls =
      match (x.run ls).result with
      | .ok a =>
        let b := (f a).run (x.run ls).labels
        ⟨b.result, b.labels, (x.run ls).code ++ b.code, (x.run ls).events ++ b.events⟩
      | .error e => ⟨.error e, (x.run ls).labels, (x.run ls).code, (x.run ls).events⟩ := rfl

theorem emits_self {x : Emitter α} {a : α} (h : (x.run ls).result = .ok a) :
    Emits x ls a (x.run ls).code (x.run ls).labels :=
  ⟨h, rfl, rfl⟩

@[simp] theorem emits_pure (a b : α) :
    Emits (pure a : Emitter α) ls b F ls' ↔ b = a ∧ F = [] ∧ ls' = ls := by
  show (Except.ok a = Except.ok b ∧ [] = F ∧ ls = ls') ↔ _
  rw [Except.ok.injEq, eq_comm, eq_comm (b := F), eq_comm (a := ls)]

theorem emits_bind {x : Emitter α} {f : α → Emitter β} {b : β} :
    Emits (x >>= f) ls b F ls' ↔
      ∃ a F₁ ls₁ F₂, Emits x ls a F₁ ls₁ ∧ Emits (f a) ls₁ b F₂ ls' ∧ F = F₁ ++ F₂ := by
  show (Emitter.bind x f ls).result = _ ∧ (Emitter.bind x f ls).code = _ ∧
    (Emitter.bind x f ls).labels = _ ↔ _
  unfold Emitter.bind Emits Emitter.run
  obtain ⟨result, labels, code, events⟩ := x ls
  cases result with
  | error e => simp
  | ok a =>
    constructor
    · rintro ⟨hr, hc, hl⟩
      exact ⟨a, _, _, _, ⟨rfl, rfl, rfl⟩, ⟨hr, rfl, hl⟩, hc.symm⟩
    · rintro ⟨_, _, _, _, ⟨h, rfl, rfl⟩, ⟨hr, rfl, hl⟩, rfl⟩
      obtain rfl := Except.ok.inj h
      exact ⟨hr, rfl, hl⟩

@[simp] theorem emits_emit (code : Assembly) (u : Unit) :
    Emits (Emitter.emit code) ls u F ls' ↔ F = code ∧ ls' = ls := by
  simp [Emits, Emitter.emit, Emitter.run, eq_comm]

@[simp] theorem emits_tell (e : Event) (u : Unit) :
    Emits (Emitter.tell e) ls u F ls' ↔ F = [] ∧ ls' = ls := by
  simp [Emits, Emitter.tell, Emitter.run, eq_comm]

@[simp] theorem emits_ofExcept (x : Except CompileError α) (a : α) :
    Emits (Emitter.ofExcept x) ls a F ls' ↔ x = .ok a ∧ F = [] ∧ ls' = ls := by
  simp [Emits, Emitter.ofExcept, Emitter.run, eq_comm]

@[simp] theorem emits_fail (e : CompileError) (a : α) :
    ¬ Emits (Emitter.fail e) ls a F ls' := by
  simp [Emitter.fail]

@[simp] theorem emits_locatedAt (l : Location) (x : Emitter α) (a : α) :
    Emits (Emitter.locatedAt l x) ls a F ls' ↔ Emits x ls a F ls' := by
  show (x ls).result.mapError _ = _ ∧ (x ls).code = F ∧ (x ls).labels = ls' ↔ Emits x ls a F ls'
  unfold Emits Emitter.run
  obtain ⟨result, labels, code, events⟩ := x ls
  cases result with
  | ok b => exact Iff.rfl
  | error e => constructor <;> rintro ⟨⟨⟩, -⟩

/-- The labels once `n` more places have been taken. -/
def Labels.skip (ls : Labels) (n : Nat) : Labels := { ls with next := ls.next + n }

@[simp] theorem Labels.next_skip (ls : Labels) (n : Nat) : (ls.skip n).next = ls.next + n := rfl

@[simp] theorem Labels.skip_skip (ls : Labels) (m n : Nat) : (ls.skip m).skip n = ls.skip (m + n) := by
  simp [Labels.skip, Nat.add_assoc]

@[simp] theorem emits_fresh (stem : String) (l : String) :
    Emits (Emitter.fresh stem) ls l F ls' ↔
      l = placeLabel stem ls.next ∧ F = [] ∧ ls' = ls.skip 1 := by
  simp [Emits, Emitter.fresh, Emitter.run, Labels.skip, eq_comm]

/-- The labels once the scratch word `name` is in use. -/
def Labels.withScratch (ls : Labels) (name : String) : Labels :=
  { ls with scratch :=
      if scratchLabel name ∈ ls.scratch then ls.scratch else ls.scratch ++ [scratchLabel name] }

@[simp] theorem emits_scratch (name : String) (l : String) :
    Emits (Emitter.scratch name) ls l F ls' ↔
      l = scratchLabel name ∧ F = [] ∧ ls' = ls.withScratch name := by
  simp [Emits, Emitter.scratch, Emitter.run, Labels.withScratch, eq_comm]

@[simp] theorem emits_scratchWords (words : List String) :
    Emits Emitter.scratchWords ls words F ls' ↔ words = ls.scratch ∧ F = [] ∧ ls' = ls := by
  simp [Emits, Emitter.scratchWords, Emitter.run, eq_comm]

/-! An emitter that takes no decision gives way to what follows it. -/

section Sequences

variable {f : Unit → Emitter β} {g : String → Emitter β} {b : β}

@[simp] theorem emits_emit_bind (code : Assembly) :
    Emits (Emitter.emit code >>= f) ls b F ls' ↔ ∃ G, Emits (f ()) ls b G ls' ∧ F = code ++ G := by
  simp only [emits_bind, emits_emit]
  constructor
  · rintro ⟨_, _, _, G, ⟨rfl, rfl⟩, h, rfl⟩
    exact ⟨G, h, rfl⟩
  · rintro ⟨G, h, rfl⟩
    exact ⟨(), _, _, G, ⟨rfl, rfl⟩, h, rfl⟩

@[simp] theorem emits_tell_bind (e : Event) :
    Emits (Emitter.tell e >>= f) ls b F ls' ↔ Emits (f ()) ls b F ls' := by
  simp only [emits_bind, emits_tell]
  constructor
  · rintro ⟨_, _, _, G, ⟨rfl, rfl⟩, h, rfl⟩
    exact h
  · exact fun h => ⟨(), _, _, F, ⟨rfl, rfl⟩, h, rfl⟩

@[simp] theorem emits_fresh_bind (stem : String) :
    Emits (Emitter.fresh stem >>= g) ls b F ls' ↔
      Emits (g (placeLabel stem ls.next)) (ls.skip 1) b F ls' := by
  simp only [emits_bind, emits_fresh]
  constructor
  · rintro ⟨_, _, _, G, ⟨rfl, rfl, rfl⟩, h, rfl⟩
    exact h
  · exact fun h => ⟨_, _, _, F, ⟨rfl, rfl, rfl⟩, h, rfl⟩

@[simp] theorem emits_scratch_bind (name : String) :
    Emits (Emitter.scratch name >>= g) ls b F ls' ↔
      Emits (g (scratchLabel name)) (ls.withScratch name) b F ls' := by
  simp only [emits_bind, emits_scratch]
  constructor
  · rintro ⟨_, _, _, G, ⟨rfl, rfl, rfl⟩, h, rfl⟩
    exact h
  · exact fun h => ⟨_, _, _, F, ⟨rfl, rfl, rfl⟩, h, rfl⟩

@[simp] theorem emits_bind_emit {x : Emitter α} (code : α → Assembly) (u : Unit) :
    Emits (x >>= fun a => Emitter.emit (code a)) ls u F ls' ↔
      ∃ a G, Emits x ls a G ls' ∧ F = G ++ code a := by
  simp only [emits_bind, emits_emit]
  constructor
  · rintro ⟨a, G, _, _, h, ⟨rfl, rfl⟩, rfl⟩
    exact ⟨a, G, h, rfl⟩
  · rintro ⟨a, G, h, rfl⟩
    exact ⟨a, G, _, _, h, ⟨rfl, rfl⟩, rfl⟩

end Sequences

end Combinators

/-! ## Names -/

theorem resolve_eq_ok {σ : Scope} {x : String} {v : Variable} :
    σ.resolve x = .ok v ↔ σ.find? x = some v := by
  unfold Scope.resolve
  cases σ.find? x <;> simp

theorem method_eq_ok {t : Table} {f : String} {m : Signature} :
    t.method f = .ok m ↔ t.method? f = some m := by
  unfold Table.method
  cases t.method? f <;> simp

theorem enter_eq_ok {σ : Scope} {f : String} {m : Signature} :
    σ.enter f = .ok m ↔ σ.table.method? f = some m ∧ σ.active = none := by
  unfold Scope.enter Table.method
  cases σ.table.method? f <;> cases σ.active <;> simp

/-! ## Expressions -/

section Expressions

variable {σ : Scope} {ls ls' : Labels} {F : Assembly} {u : Unit}

theorem emits_address {x : String} {l : Location} :
    Emits (σ.address x l) ls u F ls' ↔
      ∃ v, σ.find? x = some v ∧ F = v.place.address σ.table.wordSize ∧ ls' = ls := by
  simp only [Scope.address, emits_bind_emit, emits_locatedAt, emits_ofExcept, resolve_eq_ok]
  constructor
  · rintro ⟨v, _, ⟨hv, rfl, rfl⟩, rfl⟩
    exact ⟨v, hv, rfl, rfl⟩
  · rintro ⟨v, hv, rfl, rfl⟩
    exact ⟨v, _, ⟨hv, rfl, rfl⟩, rfl⟩

/-- The code of a call, behind the code of its arguments. -/
def callCode (f : String) (argc : Nat) : Assembly :=
  [.push (.ofNat argc), .call (methodLabel f)]

theorem emits_call {f : String} {l : Location} {argc : Nat} {args : Emitter Unit} :
    Emits (σ.call f l argc args) ls u F ls' ↔
      ∃ m G, σ.table.method? f = some m ∧ Emits args ls () G ls' ∧ F = G ++ callCode f argc := by
  rw [Scope.call, emits_bind]
  simp only [emits_bind_emit, emits_locatedAt, emits_ofExcept, method_eq_ok]
  constructor
  · rintro ⟨m, _, _, _, ⟨hm, rfl, rfl⟩, ⟨_, G, hG, rfl⟩, rfl⟩
    exact ⟨m, G, hm, hG, rfl⟩
  · rintro ⟨m, G, hm, hG, rfl⟩
    exact ⟨m, _, _, _, ⟨hm, rfl, rfl⟩, ⟨_, G, hG, rfl⟩, rfl⟩

/-- What a property `P` of expressions and their code has to keep, construct by construct. `A`,
`R` and `E` are its counterparts for lists: expressions in order, expressions in reverse, and
indices. -/
structure Expr.Rules (σ : Scope) (P : Expr → Assembly → Prop) (A R E : List Expr → Assembly → Prop) :
    Prop where
  int : ∀ v l, P (.int v l) [.push v]
  null : ∀ l, P (.null l) [.push 0]
  var : ∀ {x l v}, σ.find? x = some v →
    P (.var x l) (v.place.address σ.table.wordSize ++ [Instruction.load])
  not : ∀ {e l F}, P e F → P (.unary .not e l) (F ++ [Instruction.testZ])
  neg : ∀ {e l F}, P e F → P (.unary .neg e l) ([Instruction.push 0] ++ F ++ [Instruction.sub])
  binary : ∀ {op a b l F G}, P a F → P b G →
    P (.binary op a b l) (F ++ op.afterLeft ++ G ++ op.afterRight)
  index : ∀ {x es l v F}, σ.find? x = some v → E es F →
    P (.index x es l) (v.place.address σ.table.wordSize ++ F ++ [Instruction.load])
  length : ∀ {e l F}, P e F → P (.length e l) (F ++ [Instruction.arrayLength])
  new : ∀ {es n l F}, A es F → P (.new es n l) (F ++ [Instruction.newArray es.length])
  call : ∀ {f es l m F}, σ.table.method? f = some m → R es F →
    P (.call f es l) (F ++ callCode f es.length)
  all_nil : A [] []
  all_cons : ∀ {e es F G}, P e F → A es G → A (e :: es) (F ++ G)
  reversed_nil : R [] []
  reversed_cons : ∀ {e es F G}, P e F → R es G → R (e :: es) (G ++ F)
  element_nil : E [] []
  element_cons : ∀ {e es F G}, P e F → E es G →
    E (e :: es) ([Instruction.load] ++ F ++ [Instruction.arrayIndex] ++ G)

section

variable {P : Expr → Assembly → Prop} {A R E : List Expr → Assembly → Prop}

mutual

/-- A property that the code generator keeps holds of the code of every expression, and that code
takes no labels. -/
theorem Expr.Rules.code (r : Expr.Rules σ P A R E) :
    ∀ (e : Expr) {ls ls' F}, Emits (e.code σ) ls () F ls' → P e F ∧ ls' = ls
  | .int v l, _, _, _, h => by
    obtain ⟨rfl, rfl⟩ := (emits_emit _ _).1 h
    exact ⟨r.int v l, rfl⟩
  | .null l, _, _, _, h => by
    obtain ⟨rfl, rfl⟩ := (emits_emit _ _).1 h
    exact ⟨r.null l, rfl⟩
  | .var x l, _, _, _, h => by
    simp only [Expr.code, emits_bind_emit, emits_address] at h
    obtain ⟨_, _, ⟨v, hv, rfl, rfl⟩, rfl⟩ := h
    exact ⟨r.var hv, rfl⟩
  | .unary .not e l, _, _, _, h => by
    simp only [Expr.code, emits_bind_emit] at h
    obtain ⟨_, F, he, rfl⟩ := h
    obtain ⟨pe, rfl⟩ := Expr.Rules.code r e he
    exact ⟨r.not pe, rfl⟩
  | .unary .neg e l, _, _, _, h => by
    simp only [Expr.code, emits_emit_bind, emits_bind_emit] at h
    obtain ⟨_, ⟨_, F, he, rfl⟩, rfl⟩ := h
    obtain ⟨pe, rfl⟩ := Expr.Rules.code r e he
    exact ⟨r.neg pe, rfl⟩
  | .binary op a b l, _, _, _, h => by
    rw [Expr.code, emits_bind] at h
    obtain ⟨_, F, _, _, ha, h₁, rfl⟩ := h
    simp only [emits_emit_bind, emits_bind_emit] at h₁
    obtain ⟨_, ⟨_, G, hb, rfl⟩, rfl⟩ := h₁
    obtain ⟨pa, rfl⟩ := Expr.Rules.code r a ha
    obtain ⟨pb, rfl⟩ := Expr.Rules.code r b hb
    exact ⟨by simpa using r.binary pa pb, rfl⟩
  | .index x es l, _, _, _, h => by
    rw [Expr.code, emits_bind] at h
    obtain ⟨_, _, _, _, hx, h₁, rfl⟩ := h
    obtain ⟨v, hv, rfl, rfl⟩ := emits_address.1 hx
    simp only [emits_bind_emit] at h₁
    obtain ⟨_, F, hes, rfl⟩ := h₁
    obtain ⟨pes, rfl⟩ := Expr.Rules.element r es hes
    exact ⟨by simpa using r.index hv pes, rfl⟩
  | .length e l, _, _, _, h => by
    simp only [Expr.code, emits_bind_emit] at h
    obtain ⟨_, F, he, rfl⟩ := h
    obtain ⟨pe, rfl⟩ := Expr.Rules.code r e he
    exact ⟨r.length pe, rfl⟩
  | .new es n l, _, _, _, h => by
    simp only [Expr.code, emits_bind_emit] at h
    obtain ⟨_, F, hes, rfl⟩ := h
    obtain ⟨pes, rfl⟩ := Expr.Rules.all r es hes
    exact ⟨r.new pes, rfl⟩
  | .call f es l, _, _, _, h => by
    simp only [Expr.code, emits_call] at h
    obtain ⟨m, G, hm, hes, rfl⟩ := h
    obtain ⟨pes, rfl⟩ := Expr.Rules.reversed r es hes
    exact ⟨r.call hm pes, rfl⟩

theorem Expr.Rules.all (r : Expr.Rules σ P A R E) :
    ∀ (es : List Expr) {ls ls' F}, Emits (Expr.codeAll σ es) ls () F ls' → A es F ∧ ls' = ls
  | [], _, _, _, h => by
    obtain ⟨_, rfl, rfl⟩ := (emits_pure _ _).1 h
    exact ⟨r.all_nil, rfl⟩
  | e :: es, _, _, _, h => by
    rw [Expr.codeAll, emits_bind] at h
    obtain ⟨_, F, _, G, he, hes, rfl⟩ := h
    obtain ⟨pe, rfl⟩ := Expr.Rules.code r e he
    obtain ⟨pes, rfl⟩ := Expr.Rules.all r es hes
    exact ⟨r.all_cons pe pes, rfl⟩

theorem Expr.Rules.reversed (r : Expr.Rules σ P A R E) :
    ∀ (es : List Expr) {ls ls' F}, Emits (Expr.codeReversed σ es) ls () F ls' → R es F ∧ ls' = ls
  | [], _, _, _, h => by
    obtain ⟨_, rfl, rfl⟩ := (emits_pure _ _).1 h
    exact ⟨r.reversed_nil, rfl⟩
  | e :: es, _, _, _, h => by
    rw [Expr.codeReversed, emits_bind] at h
    obtain ⟨_, G, _, F, hes, he, rfl⟩ := h
    obtain ⟨pes, rfl⟩ := Expr.Rules.reversed r es hes
    obtain ⟨pe, rfl⟩ := Expr.Rules.code r e he
    exact ⟨r.reversed_cons pe pes, rfl⟩

theorem Expr.Rules.element (r : Expr.Rules σ P A R E) :
    ∀ (es : List Expr) {ls ls' F}, Emits (Expr.elementAddress σ es) ls () F ls' → E es F ∧ ls' = ls
  | [], _, _, _, h => by
    obtain ⟨_, rfl, rfl⟩ := (emits_pure _ _).1 h
    exact ⟨r.element_nil, rfl⟩
  | e :: es, _, _, _, h => by
    rw [Expr.elementAddress, emits_emit_bind] at h
    obtain ⟨_, h₁, rfl⟩ := h
    obtain ⟨_, F, _, _, he, h₂, rfl⟩ := emits_bind.1 h₁
    obtain ⟨G, hes, rfl⟩ := (emits_emit_bind _).1 h₂
    obtain ⟨pe, rfl⟩ := Expr.Rules.code r e he
    obtain ⟨pes, rfl⟩ := Expr.Rules.element r es hes
    exact ⟨by simpa using r.element_cons pe pes, rfl⟩

end

end

private theorem trivialRules (σ : Scope) :
    Expr.Rules σ (fun _ _ => True) (fun _ _ => True) (fun _ _ => True) (fun _ _ => True) := by
  constructor <;> intros <;> trivial

theorem Expr.emits_labels {e : Expr} (h : Emits (e.code σ) ls u F ls') : ls' = ls :=
  ((trivialRules σ).code e h).2

theorem Expr.emits_labels_reversed {es : List Expr} (h : Emits (Expr.codeReversed σ es) ls u F ls') :
    ls' = ls :=
  ((trivialRules σ).reversed es h).2

theorem Expr.emits_labels_element {es : List Expr}
    (h : Emits (Expr.elementAddress σ es) ls u F ls') : ls' = ls :=
  ((trivialRules σ).element es h).2

end Expressions

/-! ## Statements -/

section Statements

variable {σ : Scope} {ls ls' : Labels} {F : Assembly} {u : Unit}

/-- The labels of cases whose first one has number `n`. -/
def caseLabelsFrom : Nat → List SwitchCase → List String
  | _, [] => []
  | n, c :: cs => placeLabel (caseStem c.value) n :: caseLabelsFrom (n + 1) cs

@[simp] theorem length_caseLabelsFrom (n : Nat) (cs : List SwitchCase) :
    (caseLabelsFrom n cs).length = cs.length := by
  induction cs generalizing n with
  | nil => rfl
  | cons c cs ih => simp [caseLabelsFrom, ih]

theorem emits_caseLabels {cs : List SwitchCase} {labels : List String} :
    Emits (caseLabels cs) ls labels F ls' ↔
      labels = caseLabelsFrom ls.next cs ∧ F = [] ∧ ls' = ls.skip cs.length := by
  induction cs generalizing ls labels F ls' with
  | nil => simp [caseLabels, caseLabelsFrom, Labels.skip]
  | cons c cs ih =>
    rw [caseLabels, emits_fresh_bind, emits_bind]
    simp only [emits_pure, ih, caseLabelsFrom, Labels.next_skip, Labels.skip_skip, List.length_cons]
    rw [Nat.add_comm 1]
    constructor
    · rintro ⟨_, _, _, _, ⟨rfl, rfl, rfl⟩, ⟨rfl, rfl, rfl⟩, rfl⟩
      exact ⟨rfl, rfl, rfl⟩
    · rintro ⟨rfl, rfl, rfl⟩
      exact ⟨_, _, _, _, ⟨rfl, rfl, rfl⟩, ⟨rfl, rfl, rfl⟩, rfl⟩

theorem emits_checkCases {cs : List SwitchCase} :
    Emits (checkCases cs) ls u F ls' ↔ duplicateCase? [] cs = none ∧ F = [] ∧ ls' = ls := by
  unfold checkCases
  cases duplicateCase? [] cs <;> simp

/-- The code of a switch: the arms `G`, the subject `E` and the default `D` between the labels that
are taken first. -/
def switchCode (n : Nat) (cs : List SwitchCase) (G E D : Assembly) : Assembly :=
  [Instruction.jump (placeLabel "switch_dispatch" n)] ++ G ++
    [Instruction.label (placeLabel "switch_dispatch" n)] ++ E ++
    [Instruction.storei (scratchLabel "switch")] ++
    dispatch (scratchLabel "switch") cs (caseLabelsFrom (n + 3) cs) ++
    [Instruction.label (placeLabel "switch_default" (n + 2))] ++ D ++
    [Instruction.label (placeLabel "switch_end" (n + 1))]

/-- What a property `P` of statements, their code and the labels around it has to keep, construct
by construct. `A` is its counterpart for statements in order, and `C` for the arms of a switch. -/
structure Stmt.Rules (σ : Scope) (P : Stmt → Labels → Assembly → Labels → Prop)
    (A : List Stmt → Labels → Assembly → Labels → Prop)
    (C : String → List SwitchCase → List String → Labels → Assembly → Labels → Prop) : Prop where
  assign : ∀ {x e l v ls F}, σ.find? x = some v → Emits (e.code σ) ls () F ls →
    P (.assign x e l) ls (v.place.address σ.table.wordSize ++ F ++ [Instruction.store]) ls
  assignAt : ∀ {x es e l v ls E F}, σ.find? x = some v →
    Emits (Expr.elementAddress σ es) ls () E ls → Emits (e.code σ) ls () F ls →
    P (.assignAt x es e l) ls (v.place.address σ.table.wordSize ++ E ++ F ++ [Instruction.store]) ls
  ifThen : ∀ {c s l ls ls' F S}, Emits (c.code σ) ls () F ls → P s (ls.skip 1) S ls' →
    P (.ifThen c s l) ls (F ++ [Instruction.jumpIfZero (placeLabel "if_end" ls.next)] ++ S ++
      [Instruction.label (placeLabel "if_end" ls.next)]) ls'
  ifElse : ∀ {c s t l ls ls₁ ls' F S T}, Emits (c.code σ) ls () F ls → P s (ls.skip 2) S ls₁ →
    P t ls₁ T ls' →
    P (.ifElse c s t l) ls (F ++ [Instruction.jumpIfZero (placeLabel "if_else" ls.next)] ++ S ++
      [Instruction.jump (placeLabel "if_end" (ls.next + 1)),
        .label (placeLabel "if_else" ls.next)] ++ T ++
      [Instruction.label (placeLabel "if_end" (ls.next + 1))]) ls'
  whileDo : ∀ {c s l ls ls' F S}, Emits (c.code σ) (ls.skip 2) () F (ls.skip 2) →
    P s (ls.skip 2) S ls' →
    P (.whileDo c s l) ls ([Instruction.label (placeLabel "while_start" ls.next)] ++ F ++
      [Instruction.jumpIfZero (placeLabel "while_end" (ls.next + 1))] ++ S ++
      [Instruction.jump (placeLabel "while_start" ls.next),
        .label (placeLabel "while_end" (ls.next + 1))]) ls'
  switch : ∀ {e cs d l ls ls₁ ls' G E D}, duplicateCase? [] cs = none →
    C (placeLabel "switch_end" (ls.next + 1)) cs (caseLabelsFrom (ls.next + 3) cs)
      (ls.skip (3 + cs.length)) G ls₁ →
    Emits (e.code σ) ls₁ () E ls₁ → P d (ls₁.withScratch "switch") D ls' →
    P (.switch e cs d l) ls (switchCode ls.next cs G E D) ls'
  block : ∀ {ss l ls F ls'}, A ss ls F ls' → P (.block ss l) ls F ls'
  print : ∀ {k e l ls F}, Emits (e.code σ) ls () F ls → P (.print k e l) ls (F ++ k.code) ls
  newline : ∀ {l ls}, P (.newline l) ls newlineCode ls
  ret_some : ∀ {m e l ls F}, σ.active = some m → Emits (e.code σ) ls () F ls →
    P (.ret (some e) l) ls (F ++ [Instruction.push (.ofNat m.frameSize), .ret]) ls
  ret_none : ∀ {m l ls}, σ.active = some m →
    P (.ret none l) ls ([Instruction.push 0] ++ [Instruction.push (.ofNat m.frameSize), .ret]) ls
  call : ∀ {f es l m ls F}, σ.table.method? f = some m →
    Emits (Expr.codeReversed σ es) ls () F ls →
    P (.call f es l) ls (F ++ callCode f es.length ++ [Instruction.storei (scratchLabel "discard")])
      (ls.withScratch "discard")
  all_nil : ∀ {ls}, A [] ls [] ls
  all_cons : ∀ {s ss ls ls₁ ls' F G}, P s ls F ls₁ → A ss ls₁ G ls' → A (s :: ss) ls (F ++ G) ls'
  cases_nil : ∀ {done ls}, C done [] [] ls [] ls
  cases_cons : ∀ {done v s l cs label labels ls ls₁ ls' F G}, P s ls F ls₁ →
    C done cs labels ls₁ G ls' →
    C done (.mk v s l :: cs) (label :: labels) ls
      ([Instruction.label label] ++ F ++ [Instruction.jump done] ++ G) ls'

section

variable {P : Stmt → Labels → Assembly → Labels → Prop}
  {A : List Stmt → Labels → Assembly → Labels → Prop}
  {C : String → List SwitchCase → List String → Labels → Assembly → Labels → Prop}

mutual

/-- A property that the code generator keeps holds of the code of every statement. -/
theorem Stmt.Rules.code (r : Stmt.Rules σ P A C) :
    ∀ (s : Stmt) {ls ls' F}, Emits (s.code σ) ls () F ls' → P s ls F ls'
  | .assign x e l, _, _, _, h => by
    rw [Stmt.code, emits_bind] at h
    obtain ⟨_, _, _, _, hx, h₁, rfl⟩ := h
    obtain ⟨v, hv, rfl, rfl⟩ := emits_address.1 hx
    obtain ⟨_, F, he, rfl⟩ := (emits_bind_emit _ _).1 h₁
    obtain rfl := Expr.emits_labels he
    rw [← List.append_assoc]
    exact r.assign hv he
  | .assignAt x es e l, _, _, _, h => by
    rw [Stmt.code, emits_bind] at h
    obtain ⟨_, _, _, _, hx, h₁, rfl⟩ := h
    obtain ⟨v, hv, rfl, rfl⟩ := emits_address.1 hx
    obtain ⟨_, E, _, _, hes, h₂, rfl⟩ := emits_bind.1 h₁
    obtain ⟨_, F, he, rfl⟩ := (emits_bind_emit _ _).1 h₂
    obtain rfl := Expr.emits_labels_element hes
    obtain rfl := Expr.emits_labels he
    rw [← List.append_assoc, ← List.append_assoc]
    exact r.assignAt hv hes he
  | .ifThen c s l, _, _, _, h => by
    rw [Stmt.code, emits_bind] at h
    obtain ⟨_, F, _, _, hc, h₁, rfl⟩ := h
    obtain rfl := Expr.emits_labels hc
    simp only [emits_fresh_bind, emits_emit_bind, emits_bind_emit] at h₁
    obtain ⟨_, ⟨_, S, hs, rfl⟩, rfl⟩ := h₁
    simpa using r.ifThen hc (Stmt.Rules.code r s hs)
  | .ifElse c s t l, _, _, _, h => by
    rw [Stmt.code, emits_bind] at h
    obtain ⟨_, F, _, _, hc, h₁, rfl⟩ := h
    obtain rfl := Expr.emits_labels hc
    simp only [emits_fresh_bind, emits_emit_bind, Labels.skip_skip, Labels.next_skip] at h₁
    obtain ⟨_, h₂, rfl⟩ := h₁
    obtain ⟨_, S, _, _, hs, h₃, rfl⟩ := emits_bind.1 h₂
    simp only [emits_emit_bind, emits_bind_emit] at h₃
    obtain ⟨_, ⟨_, T, ht, rfl⟩, rfl⟩ := h₃
    simpa using r.ifElse hc (Stmt.Rules.code r s hs) (Stmt.Rules.code r t ht)
  | .whileDo c s l, _, _, _, h => by
    simp only [Stmt.code, emits_fresh_bind, emits_emit_bind, Labels.skip_skip, Labels.next_skip] at h
    obtain ⟨_, h₁, rfl⟩ := h
    obtain ⟨_, F, _, _, hc, h₂, rfl⟩ := emits_bind.1 h₁
    obtain rfl := Expr.emits_labels hc
    simp only [emits_emit_bind, emits_bind_emit] at h₂
    obtain ⟨_, ⟨_, S, hs, rfl⟩, rfl⟩ := h₂
    simpa using r.whileDo hc (Stmt.Rules.code r s hs)
  | .switch e cs d l, _, _, _, h => by
    rw [Stmt.code, emits_bind] at h
    obtain ⟨_, _, _, _, hcheck, h₁, rfl⟩ := h
    obtain ⟨hdup, rfl, rfl⟩ := emits_checkCases.1 hcheck
    simp only [emits_fresh_bind, Labels.skip_skip, Labels.next_skip] at h₁
    obtain ⟨_, _, _, _, hlabels, h₂, rfl⟩ := emits_bind.1 h₁
    obtain ⟨rfl, rfl, rfl⟩ := emits_caseLabels.1 hlabels
    obtain ⟨_, h₃, rfl⟩ := (emits_emit_bind _).1 h₂
    obtain ⟨_, G, _, _, hG, h₄, rfl⟩ := emits_bind.1 h₃
    obtain ⟨_, h₅, rfl⟩ := (emits_emit_bind _).1 h₄
    obtain ⟨_, E, _, _, he, h₆, rfl⟩ := emits_bind.1 h₅
    obtain rfl := Expr.emits_labels he
    simp only [emits_scratch_bind, emits_emit_bind, emits_bind_emit] at h₆
    obtain ⟨_, ⟨_, ⟨_, D, hd, rfl⟩, rfl⟩, rfl⟩ := h₆
    rw [Labels.skip_skip] at hG
    have hG' := SwitchCase.Rules.codeAll r _ cs _ (by simp) hG
    simpa [switchCode] using r.switch hdup hG' he (Stmt.Rules.code r d hd)
  | .block ss l, _, _, _, h₆ => r.block (Stmt.Rules.all r ss h₆)
  | .print k e l, _, _, _, h => by
    obtain ⟨_, F, he, rfl⟩ := (emits_bind_emit _ _).1 h
    obtain rfl := Expr.emits_labels he
    exact r.print he
  | .newline l, _, _, _, h => by
    obtain ⟨rfl, rfl⟩ := (emits_emit _ _).1 h
    exact r.newline
  | .ret v l, _, _, _, h => by
    cases hm : σ.active with
    | none => simp [Stmt.code, hm] at h
    | some m =>
      cases v with
      | some e =>
        simp only [Stmt.code, hm, emits_bind_emit] at h
        obtain ⟨_, F, he, rfl⟩ := h
        obtain rfl := Expr.emits_labels he
        exact r.ret_some hm he
      | none =>
        -- A warning is all that a function adds to a procedure here.
        cases hf : m.isFunction <;>
          simp only [Stmt.code, hm, hf, if_true, Bool.false_eq_true, if_false, emits_tell_bind,
            emits_bind_emit, emits_emit] at h <;>
          obtain ⟨_, _, ⟨rfl, rfl⟩, rfl⟩ := h <;>
          exact r.ret_none hm
  | .call f es l, _, _, _, h => by
    rw [Stmt.code, emits_bind] at h
    obtain ⟨_, _, _, _, hf, h₁, rfl⟩ := h
    obtain ⟨m, F, hm, hes, rfl⟩ := emits_call.1 hf
    obtain rfl := Expr.emits_labels_reversed hes
    simp only [emits_scratch_bind, emits_emit] at h₁
    obtain ⟨rfl, rfl⟩ := h₁
    exact r.call hm hes

theorem Stmt.Rules.all (r : Stmt.Rules σ P A C) :
    ∀ (ss : List Stmt) {ls ls' F}, Emits (Stmt.codeAll σ ss) ls () F ls' → A ss ls F ls'
  | [], _, _, _, h => by
    obtain ⟨_, rfl, rfl⟩ := (emits_pure _ _).1 h
    exact r.all_nil
  | s :: ss, _, _, _, h => by
    rw [Stmt.codeAll, emits_bind] at h
    obtain ⟨_, F, _, G, hs, hss, rfl⟩ := h
    exact r.all_cons (Stmt.Rules.code r s hs) (Stmt.Rules.all r ss hss)

theorem SwitchCase.Rules.codeAll (r : Stmt.Rules σ P A C) (done : String) :
    ∀ (cs : List SwitchCase) (labels : List String) {ls ls' F}, labels.length = cs.length →
      Emits (SwitchCase.codeAll σ done cs labels) ls () F ls' → C done cs labels ls F ls'
  | [], [], _, _, _, _, h => by
    obtain ⟨_, rfl, rfl⟩ := (emits_pure _ _).1 h
    exact r.cases_nil
  | .mk v s l :: cs, label :: labels, _, _, _, hlen, h => by
    rw [SwitchCase.codeAll, emits_emit_bind] at h
    obtain ⟨_, h₁, rfl⟩ := h
    obtain ⟨_, F, _, _, hs, h₂, rfl⟩ := emits_bind.1 h₁
    obtain ⟨G, hcs, rfl⟩ := (emits_emit_bind _).1 h₂
    have hcs' := SwitchCase.Rules.codeAll r done cs labels (by simpa using hlen) hcs
    simpa using r.cases_cons (Stmt.Rules.code r s hs) hcs'

end

end

end Statements

/-! ## Methods and programs -/

section Programs

variable {σ : Scope} {ls ls' : Labels} {F : Assembly} {u : Unit}

/-- Locating errors aside, a body is its statements in order. -/
theorem emits_bodyCode {ss : List Stmt} :
    Emits (bodyCode σ ss) ls u F ls' ↔ Emits (Stmt.codeAll σ ss) ls u F ls' := by
  induction ss generalizing ls F with
  | nil => rfl
  | cons s ss ih => simp only [bodyCode, Stmt.codeAll, emits_bind, emits_locatedAt, ih]

/-- The code of the method `name` with signature `m`, around the code `B` of its body. -/
def methodCode (name : String) (m : Signature) (B : Assembly) : Assembly :=
  [Instruction.label (methodLabel name)] ++ List.replicate m.locals.length (.push 0) ++ B ++
    [Instruction.push 0, .push (.ofNat m.frameSize), .ret]

theorem emits_method {m : Method} :
    Emits (m.code σ) ls u F ls' ↔
      ∃ s B, σ.table.method? m.name = some s ∧ σ.active = none ∧
        Emits (Stmt.codeAll (σ.inside s) m.body) ls () B ls' ∧ F = methodCode m.name s B := by
  rw [Method.code, emits_bind]
  simp only [emits_locatedAt, emits_ofExcept, enter_eq_ok, emits_tell_bind, emits_emit_bind,
    emits_bind_emit, emits_bodyCode]
  constructor
  · rintro ⟨s, _, _, _, ⟨⟨hs, hσ⟩, rfl, rfl⟩, ⟨_, ⟨_, B, hB, rfl⟩, rfl⟩, rfl⟩
    exact ⟨s, B, hs, hσ, hB, by simp [methodCode]⟩
  · rintro ⟨s, B, hs, hσ, hB, rfl⟩
    exact ⟨s, _, _, _, ⟨⟨hs, hσ⟩, rfl, rfl⟩, ⟨_, ⟨_, B, hB, rfl⟩, rfl⟩, by simp [methodCode]⟩

/-- The labels of the data words: those of the globals, then the scratch words. -/
def dataLabels (globals : List Decl) (scratch : List String) : List String :=
  globals.map (fun d => variableLabel d.name) ++ scratch

theorem emits_program {p : Program} :
    Emits (p.code σ) ls u F ls' ↔
      ∃ B ls₁ G, Emits (Stmt.codeAll σ p.body) ls () B ls₁ ∧
        Emits (methodsCode σ p.methods) ls₁ () G ls' ∧
        F = B ++ [Instruction.halt] ++ G ++ dataSegment (dataLabels σ.table.globals ls'.scratch) := by
  rw [Program.code, emits_bind]
  simp only [emits_bodyCode, emits_emit_bind]
  constructor
  · rintro ⟨_, B, ls₁, _, hB, ⟨_, h, rfl⟩, rfl⟩
    obtain ⟨_, G, _, _, hG, h₁, rfl⟩ := emits_bind.1 h
    simp only [emits_bind_emit, emits_scratchWords] at h₁
    obtain ⟨_, _, ⟨rfl, rfl, rfl⟩, rfl⟩ := h₁
    exact ⟨B, ls₁, G, hB, hG, by simp [dataLabels]⟩
  · rintro ⟨B, ls₁, G, hB, hG, rfl⟩
    refine ⟨(), B, ls₁, _, hB, ⟨_, emits_bind.2 ⟨(), G, ls',
      dataSegment (dataLabels σ.table.globals ls'.scratch), hG, ?_, rfl⟩, rfl⟩, by simp⟩
    exact (emits_bind_emit _ _).2 ⟨_, [], (emits_scratchWords _).2 ⟨rfl, rfl, rfl⟩, rfl⟩

theorem Program.compile_eq_ok {s : Settings} {p : Program} {code : Assembly} :
    (p.compile s).result = .ok code ↔
      ∃ t ls, WellDeclared s p t ∧ Emits (p.code ⟨t, none⟩) {} () code ls := by
  rw [Program.compile, Logged.bind_eq_ok]
  simp only [Table.ofProgram_eq_ok, Logged.bind_eq_ok, Logged.result_tell, Logged.result_pure,
    Except.ok.injEq]
  constructor
  · rintro ⟨t, ht, a, ha, -, -, rfl⟩
    refine ⟨t, (Emitter.run (p.code ⟨t, none⟩) {}).labels, ht, ?_⟩
    unfold Emitter.assembly at ha
    cases hr : (Emitter.run (p.code ⟨t, none⟩) {}).result with
    | error e => simp [hr, Except.map] at ha
    | ok u =>
      simp only [hr, Except.map, Except.ok.injEq] at ha
      exact ⟨hr, ha, rfl⟩
  · rintro ⟨t, ls, ht, hr, hc, -⟩
    refine ⟨t, ht, code, ?_, (), trivial, rfl⟩
    simp [Emitter.assembly, hr, hc, Except.map]

/-- A text is compiled as the program that it spells. -/
theorem result_compile_parse (s : Settings) (source : String) :
    (compile s source).result = ((Program.parse source).mapError Failure.parse).bind fun p =>
      (p.compile s).result.mapError Failure.compile := by
  unfold compile Program.parse
  cases hsource : TokenStream.ofSource source with
  | error e => rfl
  | ok stream =>
    show (stream.program.mapError Failure.parse >>= fun p =>
      (p.compile s).mapError Failure.compile).result = _
    unfold TokenStream.program
    simp only [bind, Except.bind]
    cases hstream : Parser.program stream with
    | error e rest => rfl
    | ok p rest => rfl

end Programs

end Lpl
