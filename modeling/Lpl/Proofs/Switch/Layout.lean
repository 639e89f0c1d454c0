import Lpl.Proofs.Acceptance
import Lpl.Proofs.DataLayout
import Mathlib.Data.List.Basic

/-!
# Where switches stand

The code of a switch has its arms first and its dispatch behind them, which starts with the line that
keeps the subject in a scratch word. All switches of a program keep their subjects in one scratch word.

**Theorem (`switchesOf_program`).** The lines that keep a subject are those of the switches of the
program, in order, and around each the parts of its switch stand (`Switch.Stands`): the dispatch, the
arms in front of it, each with a jump to the end, and behind it the default, which runs into the end.
-/

namespace Lpl

open Assembly (HasAt)

/-! ## Emitted code is built by the rules -/

/-- What the rules for statements build is the code of the statement. -/
theorem Stmt.emitsRules (σ : Scope) :
    Stmt.Rules σ (fun s ls F ls' => Emits (s.code σ) ls () F ls')
      (fun ss ls F ls' => Emits (Stmt.codeAll σ ss) ls () F ls')
      (fun done cs labels ls F ls' => Emits (SwitchCase.codeAll σ done cs labels) ls () F ls') where
  assign {x e l v ls F} hv he := by
    rw [Stmt.code, emits_bind]
    refine ⟨(), _, ls, F ++ [Instruction.store], emits_address.2 ⟨v, hv, rfl, rfl⟩, ?_, by simp⟩
    exact (emits_bind_emit _ _).2 ⟨(), F, he, rfl⟩
  assignAt {x es e l v ls E F} hv hes he := by
    rw [Stmt.code, emits_bind]
    refine ⟨(), _, ls, E ++ (F ++ [Instruction.store]), emits_address.2 ⟨v, hv, rfl, rfl⟩, ?_, by simp⟩
    refine emits_bind.2 ⟨(), E, ls, F ++ [Instruction.store], hes, ?_, rfl⟩
    exact (emits_bind_emit _ _).2 ⟨(), F, he, rfl⟩
  ifThen {c s l ls ls' F S} hc hs := by
    rw [Stmt.code, emits_bind, List.append_assoc, List.append_assoc]
    refine ⟨(), F, ls, _, hc, ?_, rfl⟩
    simp only [emits_fresh_bind, emits_emit_bind, emits_bind_emit]
    exact ⟨_, ⟨(), S, hs, rfl⟩, rfl⟩
  ifElse {c s t l ls ls₁ ls' F S T} hc hs ht := by
    simp only [Stmt.code, emits_bind (x := c.code σ), List.append_assoc]
    refine ⟨(), F, ls, _, hc, ?_, rfl⟩
    simp only [emits_fresh_bind, emits_emit_bind, Labels.skip_skip, Labels.next_skip]
    refine ⟨_, emits_bind.2 ⟨(), S, ls₁, _, hs, ?_, rfl⟩, rfl⟩
    simp only [emits_emit_bind, emits_bind_emit]
    exact ⟨_, ⟨(), T, ht, rfl⟩, rfl⟩
  whileDo {c s l ls ls' F S} hc hs := by
    simp only [Stmt.code, emits_fresh_bind, emits_emit_bind, Labels.skip_skip, Labels.next_skip,
      List.append_assoc]
    refine ⟨_, emits_bind.2 ⟨(), F, ls.skip 2, _, hc, ?_, rfl⟩, rfl⟩
    simp only [emits_emit_bind, emits_bind_emit]
    exact ⟨_, ⟨(), S, hs, rfl⟩, rfl⟩
  switch {e cs d l ls ls₁ ls' G E D} hdup hG he hd := by
    rw [Stmt.code, emits_bind]
    refine ⟨(), [], ls, switchCode ls.next cs G E D, emits_checkCases.2 ⟨hdup, rfl, rfl⟩, ?_, rfl⟩
    simp only [switchCode, emits_fresh_bind, Labels.skip_skip, Labels.next_skip, List.append_assoc]
    refine emits_bind.2 ⟨_, [], _, _, emits_caseLabels.2 ⟨rfl, rfl, rfl⟩, ?_, rfl⟩
    rw [Labels.skip_skip]
    refine (emits_emit_bind _).2 ⟨_, emits_bind.2 ⟨(), G, ls₁, _, hG, ?_, rfl⟩, rfl⟩
    refine (emits_emit_bind _).2 ⟨_, emits_bind.2 ⟨(), E, ls₁, _, he, ?_, rfl⟩, rfl⟩
    simp only [emits_scratch_bind, emits_emit_bind, emits_bind_emit]
    exact ⟨_, ⟨_, ⟨(), D, hd, rfl⟩, rfl⟩, rfl⟩
  block h := h
  print he := (emits_bind_emit _ _).2 ⟨(), _, he, rfl⟩
  newline := (emits_emit _ _).2 ⟨rfl, rfl⟩
  ret_some hm he := by
    simp only [Stmt.code, hm, emits_bind_emit]
    exact ⟨(), _, he, rfl⟩
  ret_none {m l ls} hm := by
    cases hf : m.isFunction <;>
      simp only [Stmt.code, hm, hf, if_true, Bool.false_eq_true, if_false, emits_tell_bind,
        emits_bind_emit] <;>
      exact ⟨(), _, (emits_emit _ _).2 ⟨rfl, rfl⟩, rfl⟩
  call {f es l m ls F} hm hes := by
    rw [Stmt.code, emits_bind]
    refine ⟨(), F ++ callCode f es.length, ls, _, emits_call.2 ⟨m, F, hm, hes, rfl⟩, ?_, rfl⟩
    exact (emits_scratch_bind _).2 ((emits_emit _ _).2 ⟨rfl, rfl⟩)
  all_nil := (emits_pure _ _).2 ⟨rfl, rfl, rfl⟩
  all_cons hs hss := emits_bind.2 ⟨(), _, _, _, hs, hss, rfl⟩
  cases_nil := (emits_pure _ _).2 ⟨rfl, rfl, rfl⟩
  cases_cons {done v s l cs label labels ls ls₁ ls' F G} hs hcs := by
    rw [SwitchCase.codeAll, emits_emit_bind, List.append_assoc, List.append_assoc]
    refine ⟨_, emits_bind.2 ⟨(), F, ls₁, _, hs, ?_, rfl⟩, rfl⟩
    exact (emits_emit_bind _).2 ⟨G, hcs, rfl⟩

/-! ## Switches of a program -/

/-- A switch statement. -/
structure Switch where
  subject : Expr
  cases : List SwitchCase
  default : Stmt
  location : Location

def Switch.stmt (sw : Switch) : Stmt := .switch sw.subject sw.cases sw.default sw.location

mutual

/-- The switches of a statement, in the order of their dispatches. -/
def Stmt.switches : Stmt → List Switch
  | .ifThen _ s _ | .whileDo _ s _ => s.switches
  | .ifElse _ s t _ => s.switches ++ t.switches
  | .switch e cs d l => SwitchCase.switchesAll cs ++ ⟨e, cs, d, l⟩ :: d.switches
  | .block ss _ => Stmt.switchesAll ss
  | .assign .. | .assignAt .. | .print .. | .newline .. | .ret .. | .call .. => []

def Stmt.switchesAll : List Stmt → List Switch
  | [] => []
  | s :: ss => s.switches ++ Stmt.switchesAll ss

def SwitchCase.switchesAll : List SwitchCase → List Switch
  | [] => []
  | .mk _ s _ :: cs => s.switches ++ SwitchCase.switchesAll cs

end

/-- The switches of a program: those of its main body, and then those of its methods. -/
def Program.switches (p : Program) : List Switch :=
  Stmt.switchesAll p.body ++ p.methods.flatMap fun m => Stmt.switchesAll m.body

/-! ## Parts of a switch -/

/-- The line that keeps the subject of a switch. -/
def keepSubject : Instruction := .storei (scratchLabel "switch")

/-- The lines of a switch that are jumped to. -/
structure Switch.Lines where
  /-- The labels of the arms. -/
  arms : List Nat
  /-- The label of the default. -/
  otherwise : Nat
  /-- The label at the end. -/
  done : Nat

/-- The arm of the case `c` stands at line `m`, above line `stop`: a label, the code of its body, and a
jump to `done`. -/
def ArmAt (σ : Scope) (code : Assembly) (stop : Nat) (done : String) (c : SwitchCase) (m : Nat) : Prop :=
  ∃ ls ls' l F, Emits (c.body.code σ) ls () F ls' ∧
    HasAt code m ([Instruction.label l] ++ F ++ [Instruction.jump done]) ∧ m + F.length + 2 ≤ stop

/-- The dispatch of the switch starts at line `k`, and its parts stand around it. -/
structure Switch.Stands (sw : Switch) (σ : Scope) (code : Assembly) (k : Nat) (L : Lines) : Prop where
  values : (sw.cases.map SwitchCase.value).Nodup
  inside : ∃ ls ls' F n, Emits (sw.stmt.code σ) ls () F ls' ∧ HasAt code n F ∧ n < k ∧
    n + F.length = L.done + 1
  dispatch : ∃ labels, HasAt code k (keepSubject :: dispatch (scratchLabel "switch") sw.cases labels) ∧
    List.Forall₂ (fun l m => code[m]? = some (.label l)) labels L.arms
  arms : ∃ done, code[L.done]? = some (.label done) ∧
    List.Forall₂ (ArmAt σ code k done) sw.cases L.arms
  otherwise : L.otherwise = k + 1 + 4 * sw.cases.length
  default : ∃ ls ls' l D, Emits (sw.default.code σ) ls () D ls' ∧
    HasAt code L.otherwise ([Instruction.label l] ++ D) ∧ L.done = L.otherwise + 1 + D.length

/-- The dispatch of the switch stands at line `k` of code with the table `t`. -/
def Switch.At (t : Table) (code : Assembly) (sw : Switch) (k : Nat) : Prop :=
  ∃ (σ : Scope) (L : Switch.Lines), σ.table = t ∧ sw.Stands σ code k L

/-- Wherever `F` stands, the lines of it that keep a subject are those of the switches `sws`. -/
def SwitchesOf (t : Table) (F : Assembly) (sws : List Switch) : Prop :=
  ∀ code n, HasAt code n F → List.Forall₂ (Switch.At t code) sws (F.idxsOf keepSubject n)

namespace SwitchesOf

variable {t : Table} {F G : Assembly} {sws sws' : List Switch}

theorem none (h : keepSubject ∉ F) : SwitchesOf t F [] := by
  intro code n _
  have hnil : F.idxsOf keepSubject n = [] := by
    rw [List.idxsOf, List.findIdxs_eq_nil_iff]
    intro i hi
    exact beq_eq_false_iff_ne.2 fun heq => h (heq ▸ hi)
  rw [hnil]
  exact .nil

theorem append (hF : SwitchesOf t F sws) (hG : SwitchesOf t G sws') :
    SwitchesOf t (F ++ G) (sws ++ sws') := by
  intro code n h
  rw [List.idxsOf, List.findIdxs_append]
  exact List.rel_append (hF code n h.left) (hG code _ h.right)

theorem before (h : SwitchesOf t F sws) (hG : keepSubject ∉ G) : SwitchesOf t (F ++ G) sws := by
  simpa using h.append (.none hG)

theorem after (h : SwitchesOf t F sws) (hG : keepSubject ∉ G) : SwitchesOf t (G ++ F) sws :=
  (none hG).append h

end SwitchesOf

theorem not_mem_dispatch (word : String) (cs : List SwitchCase) (labels : List String) :
    keepSubject ∉ dispatch word cs labels := by
  simp [dispatch, keepSubject]

/-- Wherever `F` stands, it has the arms of the cases. -/
def ArmsOf (σ : Scope) (done : String) (cs : List SwitchCase) (labels : List String) (F : Assembly) :
    Prop :=
  ∀ code n, HasAt code n F → ∃ starts,
    List.Forall₂ (fun l m => code[m]? = some (.label l)) labels starts ∧
      List.Forall₂ (ArmAt σ code (n + F.length) done) cs starts

theorem not_mem_of_words {F : Assembly} (h : F.words = []) : keepSubject ∉ F := by
  intro hmem
  have hword : scratchLabel "switch" ∈ F.words := List.mem_filterMap.2 ⟨_, hmem, rfl⟩
  rw [h] at hword
  cases hword

theorem ArmAt.mono {σ : Scope} {code : Assembly} {stop stop' : Nat} {done : String} {c : SwitchCase}
    {m : Nat} (h : ArmAt σ code stop done c m) (hle : stop ≤ stop') : ArmAt σ code stop' done c m := by
  obtain ⟨ls, ls', l, F, hF, hat, hm⟩ := h
  exact ⟨ls, ls', l, F, hF, hat, Nat.le_trans hm hle⟩

theorem ArmsOf.cons {σ : Scope} {done : String} {c : SwitchCase} {cs : List SwitchCase} {label : String}
    {labels : List String} {ls ls' : Labels} {F G : Assembly} (hF : Emits (c.body.code σ) ls () F ls')
    (hG : ArmsOf σ done cs labels G) :
    ArmsOf σ done (c :: cs) (label :: labels)
      ([Instruction.label label] ++ F ++ [Instruction.jump done] ++ G) := by
  intro code n hcode
  obtain ⟨starts, hlabels, harms⟩ := hG code _ hcode.right
  refine ⟨n :: starts, .cons hcode.left.left.left.head hlabels, .cons ?_ ?_⟩
  · refine ⟨ls, ls', label, F, hF, hcode.left, ?_⟩
    simp only [List.length_append, List.length_cons, List.length_nil]
    omega
  · refine harms.imp fun _ _ harm => harm.mono ?_
    simp only [List.length_append]
    omega

@[simp] theorem length_dispatch (word : String) {cs : List SwitchCase} {labels : List String}
    (h : labels.length = cs.length) : (dispatch word cs labels).length = 4 * cs.length := by
  have hzip : (cs.zip labels).length = cs.length := by
    rw [List.length_zip, h, Nat.min_self]
  rw [← hzip, dispatch, List.length_flatMap]
  simp [Nat.mul_comm]

/-- The part of a switch before its dispatch: the arms and the subject. -/
def switchHead (j : Nat) (G E : Assembly) : Assembly :=
  [Instruction.jump (placeLabel "switch_dispatch" j)] ++
    (G ++ ([Instruction.label (placeLabel "switch_dispatch" j)] ++ E))

/-- The part of a switch behind its dispatch: the default and the end. -/
def switchTail (j : Nat) (D : Assembly) : Assembly :=
  [Instruction.label (placeLabel "switch_default" (j + 2))] ++ D ++
    [Instruction.label (placeLabel "switch_end" (j + 1))]

theorem switchCode_eq (j : Nat) (cs : List SwitchCase) (G E D : Assembly) :
    switchCode j cs G E D = switchHead j G E ++ ((keepSubject ::
      dispatch (scratchLabel "switch") cs (caseLabelsFrom (j + 3) cs)) ++ switchTail j D) := by
  simp [switchCode, switchHead, switchTail, keepSubject]

section Statements

variable {σ : Scope} {code : Assembly} {e : Expr} {cs : List SwitchCase} {d : Stmt} {l : Location}
  {ls ls₁ ls' ls'' : Labels} {j n : Nat} {G E D : Assembly}

/-- The parts of a switch stand where its code does. -/
theorem Switch.at_switchCode (hdup : duplicateCase? [] cs = none)
    (hcode : HasAt code n (switchCode j cs G E D))
    (hstmt : Emits ((Stmt.switch e cs d l).code σ) ls () (switchCode j cs G E D) ls')
    (hG : ArmsOf σ (placeLabel "switch_end" (j + 1)) cs (caseLabelsFrom (j + 3) cs) G)
    (hd : Emits (d.code σ) ls₁ () D ls'') :
    Switch.At σ.table code ⟨e, cs, d, l⟩ (n + (switchHead j G E).length) := by
  have hlength := length_dispatch (scratchLabel "switch") (length_caseLabelsFrom (j + 3) cs)
  have hparts := switchCode_eq j cs G E D ▸ hcode
  have harms : HasAt code (n + 1) G := hparts.left.right.left
  have hhead : 1 + G.length < (switchHead j G E).length := by
    simp only [switchHead, List.length_append, List.length_cons, List.length_nil]
    omega
  obtain ⟨starts, hlabels, harms⟩ := hG code _ harms
  have htail := hparts.right.right
  rw [List.length_cons, hlength, Nat.add_comm (4 * _), ← Nat.add_assoc] at htail
  refine ⟨σ, ⟨starts, n + (switchHead j G E).length + 1 + 4 * cs.length,
    n + (switchHead j G E).length + 1 + 4 * cs.length + 1 + D.length⟩, rfl, ?_, ?_, ?_, ?_, rfl, ?_⟩
  · exact (duplicateCase?_eq_none.1 hdup).1
  · refine ⟨ls, ls', _, n, hstmt, hcode, by omega, ?_⟩
    simp only [switchCode_eq, switchTail, List.length_append, List.length_cons, List.length_nil,
      hlength]
    omega
  · exact ⟨_, hparts.right.left, hlabels⟩
  · refine ⟨_, ?_, harms.imp fun _ _ harm => harm.mono (by omega)⟩
    have hdone := htail.right.head
    rwa [List.length_append, List.length_singleton, ← Nat.add_assoc] at hdone
  · exact ⟨ls₁, ls'', _, D, hd, htail.left, rfl⟩

/-- The switches of a switch: those of its arms, itself, and those of its default. -/
theorem switchesOf_switchCode (hdup : duplicateCase? [] cs = none)
    (hstmt : Emits ((Stmt.switch e cs d l).code σ) ls () (switchCode j cs G E D) ls')
    (harms : ArmsOf σ (placeLabel "switch_end" (j + 1)) cs (caseLabelsFrom (j + 3) cs) G)
    (hd : Emits (d.code σ) ls₁ () D ls'') (hG : SwitchesOf σ.table G (SwitchCase.switchesAll cs))
    (hE : keepSubject ∉ E) (hD : SwitchesOf σ.table D d.switches) :
    SwitchesOf σ.table (switchCode j cs G E D) (Stmt.switches (.switch e cs d l)) := by
  have hhead : SwitchesOf σ.table (switchHead j G E) (SwitchCase.switchesAll cs) :=
    (hG.before (List.not_mem_cons_of_ne_of_not_mem Instruction.noConfusion hE)).after
      (not_mem_of_words rfl)
  have htail : SwitchesOf σ.table (dispatch (scratchLabel "switch") cs (caseLabelsFrom (j + 3) cs) ++
      switchTail j D) d.switches :=
    ((hD.after (not_mem_of_words rfl)).before (not_mem_of_words rfl)).after
      (not_mem_dispatch _ _ _)
  intro code n hcode
  have hat := Switch.at_switchCode hdup hcode hstmt harms hd
  rw [switchCode_eq] at hcode ⊢
  rw [List.idxsOf, List.findIdxs_append, List.cons_append, List.findIdxs_cons,
    if_pos (beq_self_eq_true _), Stmt.switches]
  exact List.rel_append (hhead code n hcode.left) (.cons hat (htail code _ hcode.right.tail))

theorem Expr.not_mem_code {F : Assembly} (h : Emits (e.code σ) ls () F ls') :
    keepSubject ∉ F :=
  not_mem_of_words ((Expr.straightRules σ).code e h).1.words

theorem not_mem_append {F G : Assembly} {i : Instruction} (hF : i ∉ F) (hG : i ∉ G) : i ∉ F ++ G :=
  fun h => (List.mem_append.1 h).elim hF hG

/-- The code of a statement has the dispatches of its switches. -/
theorem Stmt.switchesRules (σ : Scope) :
    Stmt.Rules σ
      (fun s ls F ls' => Emits (s.code σ) ls () F ls' ∧ SwitchesOf σ.table F s.switches)
      (fun ss ls F ls' => Emits (Stmt.codeAll σ ss) ls () F ls' ∧
        SwitchesOf σ.table F (Stmt.switchesAll ss))
      (fun done cs labels ls F ls' => Emits (SwitchCase.codeAll σ done cs labels) ls () F ls' ∧
        SwitchesOf σ.table F (SwitchCase.switchesAll cs) ∧ ArmsOf σ done cs labels F) where
  assign hv he := by
    refine ⟨(Stmt.emitsRules σ).assign hv he, .none ?_⟩
    exact not_mem_append (not_mem_append (not_mem_of_words (straight_address _ _).words)
      (Expr.not_mem_code he)) (not_mem_of_words rfl)
  assignAt hv hes he := by
    have hE := not_mem_of_words ((Expr.straightRules σ).element _ hes).1.words
    refine ⟨(Stmt.emitsRules σ).assignAt hv hes he, .none ?_⟩
    exact not_mem_append (not_mem_append (not_mem_append
      (not_mem_of_words (straight_address _ _).words) hE) (Expr.not_mem_code he))
      (not_mem_of_words rfl)
  ifThen hc hs := by
    refine ⟨(Stmt.emitsRules σ).ifThen hc hs.1, ?_⟩
    exact (hs.2.after (not_mem_append (Expr.not_mem_code hc)
      (not_mem_of_words rfl))).before (not_mem_of_words rfl)
  ifElse hc hs ht := by
    refine ⟨(Stmt.emitsRules σ).ifElse hc hs.1 ht.1, ?_⟩
    exact (((hs.2.after (not_mem_append (Expr.not_mem_code hc) (not_mem_of_words rfl))).before
      (not_mem_of_words rfl)).append ht.2).before (not_mem_of_words rfl)
  whileDo hc hs := by
    refine ⟨(Stmt.emitsRules σ).whileDo hc hs.1, ?_⟩
    exact (hs.2.after (not_mem_append (not_mem_append (not_mem_of_words rfl)
      (Expr.not_mem_code hc)) (not_mem_of_words rfl))).before (not_mem_of_words rfl)
  switch {e cs d l ls ls₁ ls' G E D} hdup hG he hd := by
    have hstmt := (Stmt.emitsRules σ).switch (l := l) hdup hG.1 he hd.1
    exact ⟨hstmt, switchesOf_switchCode hdup hstmt hG.2.2 hd.1 hG.2.1
      (Expr.not_mem_code he) hd.2⟩
  block h := h
  print he := by
    refine ⟨(Stmt.emitsRules σ).print he, .none ?_⟩
    exact not_mem_append (Expr.not_mem_code he)
      (not_mem_of_words (straight_print _).words)
  newline := ⟨(Stmt.emitsRules σ).newline, .none (not_mem_of_words rfl)⟩
  ret_some hm he := by
    refine ⟨(Stmt.emitsRules σ).ret_some hm he, .none ?_⟩
    exact not_mem_append (Expr.not_mem_code he) (not_mem_of_words rfl)
  ret_none hm := ⟨(Stmt.emitsRules σ).ret_none hm, .none (not_mem_of_words rfl)⟩
  call hm hes := by
    have hF := not_mem_of_words ((Expr.straightRules σ).reversed _ hes).1.words
    refine ⟨(Stmt.emitsRules σ).call hm hes, .none ?_⟩
    exact not_mem_append (not_mem_append hF (not_mem_of_words rfl)) (by decide)
  all_nil := ⟨(Stmt.emitsRules σ).all_nil, .none (not_mem_of_words rfl)⟩
  all_cons hs hss := ⟨(Stmt.emitsRules σ).all_cons hs.1 hss.1, hs.2.append hss.2⟩
  cases_nil := ⟨(Stmt.emitsRules σ).cases_nil, .none (not_mem_of_words rfl),
    fun _ _ _ => ⟨[], .nil, .nil⟩⟩
  cases_cons hs hcs := by
    refine ⟨(Stmt.emitsRules σ).cases_cons hs.1 hcs.1, ?_, .cons hs.1 hcs.2.2⟩
    exact ((hs.2.after (not_mem_of_words rfl)).before (not_mem_of_words rfl)).append
      hcs.2.1

end Statements

/-! ## Methods and programs -/

theorem switchesOf_methods {σ : Scope} {ms : List Method} {ls ls' : Labels} {G : Assembly}
    (h : Emits (methodsCode σ ms) ls () G ls') :
    SwitchesOf σ.table G (ms.flatMap fun m => Stmt.switchesAll m.body) := by
  induction ms generalizing ls G with
  | nil =>
    obtain ⟨-, rfl, -⟩ := (emits_pure _ _).1 h
    exact .none (not_mem_of_words rfl)
  | cons m ms ih =>
    obtain ⟨_, F, _, G, hm, hms, rfl⟩ := emits_bind.1 h
    obtain ⟨sig, B, -, -, hB, rfl⟩ := emits_method.1 hm
    have hB : SwitchesOf σ.table B (Stmt.switchesAll m.body) :=
      ((Stmt.switchesRules (σ.inside sig)).all _ hB).2
    have hentry : keepSubject ∉ [Instruction.label (methodLabel m.name)] ++
        List.replicate sig.locals.length (.push 0) :=
      not_mem_append (not_mem_of_words rfl) (not_mem_of_words (straight_replicate_push _ _).words)
    rw [List.flatMap_cons]
    exact ((hB.after hentry).before (not_mem_of_words rfl)).append (ih hms)

/-- The lines of a program that keep a subject are those of its switches. -/
theorem switchesOf_program {σ : Scope} {p : Program} {ls ls' : Labels} {F : Assembly}
    (h : Emits (p.code σ) ls () F ls') : SwitchesOf σ.table F p.switches := by
  obtain ⟨B, _, G, hB, hG, rfl⟩ := emits_program.1 h
  have hB := ((Stmt.switchesRules σ).all _ hB).2.before (G := [.halt]) (not_mem_of_words rfl)
  exact (hB.append (switchesOf_methods hG)).before (not_mem_of_words (words_dataSegment _))

end Lpl
