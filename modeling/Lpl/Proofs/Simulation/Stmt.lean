import Lpl.Proofs.Simulation.Frames

/-!
# Simulation of statements

**Theorem (`Stmt.simulates`).** The code of a statement without arrays does what the interpreter does
with the statement: it goes on behind the code between statements, or it returns from the method.

A loop is followed round by round, and in a switch the dispatch is followed case by case: the subject
stays in its scratch word all that time, since only temporary words are written.
-/

namespace Lpl

open Machine

section Words

variable {t : Table} {code : Assembly} {img : Image} {d : Int} {base s : State} {k n : Nat}
  {u v : Int32} {vs : List Int32} {w : World} {l l' : String} (L : Linked t code img d)

include L

/-- The word that a line uses is a word behind the globals. -/
theorem Linked.address_of_word {i : Instruction} (hi : code[k]? = some i) (hw : i.word? = some l) :
    ∃ a, img.addresses[l]? = some a ∧ t.globals.length * t.wordSize ≤ a ∧ a < d :=
  L.words (List.mem_filterMap.2 ⟨i, List.mem_of_getElem? hi, hw⟩)

theorem At.line_storei (hi : code[k]? = some (.storei l)) (h : At t base k (v :: vs) w s) :
    Leads img d (fun s' => At t base (k + 1) vs w s' ∧
      ∃ a, img.addresses[l]? = some a ∧ a < d ∧ s'.memory.read a = v) s := by
  obtain ⟨a, ha, hlow, hhigh⟩ := L.address_of_word hi rfl
  have hstep := step_storei (h.sp_lt L) (h.code_eq L hi) ha
  rw [h.stacked.top, L.wordSize, h.pc] at hstep
  refine .step hstep fun hd _ => ⟨?_, a, ha, hhigh, by simp⟩
  have hw := L.wordSize_pos
  exact (h.drop.store L hlow (by rw [State.sp_drop]; omega) v).goto (k + 1)

theorem At.line_loadi {a : Int} (hi : code[k]? = some (.loadi l))
    (ha : img.addresses[l]? = some a) (had : a < d) (h : At t base k vs w s) :
    Leads img d (fun s' => At t base (k + 1) (s.memory.read a :: vs) w s' ∧
      s'.memory.read a = s.memory.read a) s := by
  have hstep := step_loadi (h.code_eq L hi) ha
  rw [L.wordSize, h.pc] at hstep
  refine .step hstep fun _ hd => ⟨(h.push L hd _).goto (k + 1), ?_⟩
  have hd : d ≤ s.sp - t.wordSize := hd
  exact Memory.read_write_of_ne _ (by omega) _

/-- A comparison with a constant. No data word changes. -/
theorem At.line_compare {a : Int} (hcode : code.HasAt k [.push u, .sub, .jumpIfZero l'])
    (hl' : code[n]? = some (.label l')) (had : a < d) (h : At t base k (v :: vs) w s) :
    Leads img d (fun s' => At t base (if v = u then n else k + 3) vs w s' ∧
      s'.memory.read a = s.memory.read a) s := by
  have hpush := step_push (h.code_eq L hcode.head)
  rw [L.wordSize, h.pc] at hpush
  refine Leads.trans (Q := fun s' => At t base (k + 1) (u :: v :: vs) w s' ∧
    s'.memory.read a = s.memory.read a) (.step hpush fun _ hd => ⟨(h.push L hd u).goto _, ?_⟩)
    fun s₁ ⟨h₁, hmem₁⟩ => ?_
  · have hd : d ≤ s.sp - t.wordSize := hd
    exact Memory.read_write_of_ne _ (by omega) _
  have hsub := h₁.step_combined L (fun _ => rfl) (r := v - u) rfl hcode.tail.head
  refine Leads.trans (Q := fun s' => At t base (k + 2) ((v - u) :: vs) w s' ∧
    s'.memory.read a = s.memory.read a) (.step hsub fun hd _ => ⟨h₁.combined L hd _, ?_⟩)
    fun s₂ ⟨h₂, hmem₂⟩ => ?_
  · have hw := L.wordSize_pos
    refine (Memory.read_write_of_ne _ ?_ _).trans hmem₁
    rw [State.sp_drop, State.sp_drop]
    omega
  have hjump := step_jumpIfZero (h₂.sp_lt L) (h₂.code_eq L hcode.tail.tail.head) (L.places hl')
  rw [h₂.stacked.top, L.wordSize, h₂.pc] at hjump
  refine .step hjump fun _ _ => ⟨?_, hmem₂⟩
  simp only [← word_sub_eq_zero v u]
  exact h₂.drop.goto _

/-- Printing a newline. -/
theorem leads_newline (hcode : code.HasAt k newlineCode) (h : At t base k vs w s) :
    Leads img d (At t base (k + 2) vs { w with output := w.output ++ "\n" }) s := by
  have hnewline : String.singleton (charOf 10) = "\n" := by decide
  rw [← hnewline]
  exact (h.line_push L hcode.head).trans fun _ h' => h'.line_outChar L hcode.tail.head

/-- Printing what is on the stack. -/
theorem PrintKind.leads_code (kind : PrintKind) (hcode : code.HasAt k kind.code)
    (h : At t base k (v :: vs) w s) :
    Leads img d (At t base (k + kind.code.length) vs
      { w with output := w.output ++ kind.written v }) s := by
  cases kind with
  | number => exact h.line_outDec L hcode.head
  | line =>
    refine (h.line_outDec L hcode.head).trans fun s' h' => ?_
    have hnewline := leads_newline L hcode.tail h'
    rw [String.append_assoc] at hnewline
    exact hnewline
  | character => exact h.line_outChar L hcode.head

end Words

/-! ## Statements -/

/-- Where a statement ends: between statements at line `k`, or in the caller. -/
def Continues (σ : Scope) (c : Caller) (k : Nat) : Flow → World → State → Prop
  | .next f, w, s => Between σ c f k w s
  | .returned v, w, s => σ.active ≠ none ∧ Returned σ.table c v w s

section Statements

variable {σ : Scope} {code : Assembly} {img : Image} {d : Int} {c : Caller} {f : Bindings}
  {k k' n : Nat} {v : Int32} {w : World} {s : State} {r : Flow} {l : String}
  {call : String → List Int32 → Eval Int32} (L : Linked σ.table code img d)

include L

theorem Continues.label (hi : code[k]? = some (.label l)) (h : Continues σ c k r w s) :
    Leads img d (Continues σ c (k + 1) r w) s := by
  cases r with
  | next f => exact Between.line_label L hi h
  | returned v => exact .here h

theorem Continues.jump (hi : code[k]? = some (.jump l)) (hl : code[n]? = some (.label l))
    (h : Continues σ c k r w s) : Leads img d (Continues σ c (n + 1) r w) s := by
  cases r with
  | next f => exact (Between.line_jump L hi hl h).trans fun _ h' => h'.line_label L hl
  | returned v => exact .here h

/-- A branch on a condition. -/
theorem At.branch (hbase : Between σ c f k w s) {w' : World} {s' : State}
    (hi : code[k']? = some (.jumpIfZero l)) (hl : code[n]? = some (.label l))
    (h : At σ.table s k' [v] w' s') :
    Leads img d (Between σ c f (if v = 0 then n else k' + 1) w') s' :=
  (h.line_jumpIfZero L hi hl).trans fun _ h' => .here (hbase.of_at h')

/-- The statement that is left by a `RETURN`. -/
theorem At.leave {m : Signature} (hm : σ.active = some m) (hbase : Between σ c f k w s) {w' : World}
    {s' : State} (hcode : code.HasAt k' [.push (.ofNat m.frameSize), .ret])
    (h : At σ.table s k' [v] w' s') : Leads img d (Continues σ c n (.returned v) w') s' := by
  have hopen : Opened σ.table.wordSize m c s := by
    have hset := hbase.settled
    unfold Settled at hset
    rwa [hm] at hset
  refine (h.line_push L hcode.head).trans fun s₁ h₁ => ?_
  refine (h₁.line_ret L hcode.tail.head hopen).trans fun s₂ h₂ => .here ⟨?_, h₂⟩
  rw [hm]
  exact Option.some_ne_none m

/-- The step of a `store` at statement level. -/
theorem At.step_stored {base s' : State} {w' : World} {a : Int32} (hi : code[k']? = some .store)
    (h : At σ.table base k' [v, a] w' s') :
    step img s' = .ok true ((((s'.drop σ.table.wordSize).drop σ.table.wordSize).store a.toInt
      v).goto (k' + 1)) := by
  have hlt : s'.sp + img.wordSize < stackTop := by
    rw [L.wordSize]
    exact h.drop.sp_lt L
  have ha : s'.memory.read (s'.sp + img.wordSize) = a := by
    rw [L.wordSize]
    exact h.drop.stacked.top
  have hstep := step_store (h.sp_lt L) hlt (h.code_eq L hi)
  rwa [h.stacked.top, ha, L.wordSize, h.pc] at hstep

/-- Storing the value of a variable of the method. -/
theorem At.assign_slot {m : Signature} {x : String} {u : Variable} {w' : World} {s' : State}
    (hm : σ.active = some m) (hu : Scope.inMethod? m x = some u) (hbase : Between σ c f k w s)
    (hi : code[k']? = some .store)
    (h : At σ.table s k' [v, .ofInt (s.fp + u.place.displacement σ.table.wordSize)] w' s') :
    Leads img d (Between σ c (f.set x v) (k' + 1) w') s' := by
  intro hsafe
  have hd := hsafe.le
  have hw := L.wordSize_pos
  have hle := h.stacked.sp_le hw
  have hnonneg := L.data_nonneg
  obtain ⟨hlow, hhigh⟩ := hbase.sees.inStack hm hu
  have hstep := h.step_stored L hi
  rw [toInt_ofInt_of_inStack (by omega) hhigh] at hstep
  have hrest := hbase.of_at h.drop.drop
  have hfp : ((s'.drop σ.table.wordSize).drop σ.table.wordSize).fp = s.fp := h.stacked.fp
  have hstored := hrest.store_slot L (by simp; omega) hm hu v (k' + 1)
  rw [hfp] at hstored
  exact ⟨_, .single hstep, hstored⟩

/-- Storing the value of a global. -/
theorem At.assign_global {x : String} {u : Variable} {w' : World} {s' : State}
    (hu : Scope.global? σ.table x = some u) (hbase : Between σ c f k w s)
    (hi : code[k']? = some .store)
    (h : At σ.table s k' [v, .ofInt (u.place.displacement σ.table.wordSize)] w' s') :
    Leads img d (Between σ c f (k' + 1) { w' with globals := w'.globals.set x v }) s' := by
  intro hsafe
  have hd := hsafe.le
  have hw := L.wordSize_pos
  have hle := h.stacked.sp_le hw
  have hglobals := L.globals_le
  have hsp := h.sp_le
  have hfp := h.fp_le
  obtain ⟨hlow, hhigh⟩ := L.global_lt hu
  have hstep := h.step_stored L hi
  rw [toInt_ofInt_of_inStack hlow (by omega)] at hstep
  have hrest := hbase.of_at h.drop.drop
  exact ⟨_, .single hstep, hrest.store_global L (by simp; omega) hu v (k' + 1)⟩

/-- An assignment: the address, the value, `store`. -/
theorem simulates_assign {x : String} {u : Variable} {e : Expr} {F : Assembly}
    (hu : σ.find? x = some u) (he : ExprSimulates σ code img d call f e F) (hfree : e.arrayFree)
    (hargs : ArgsMatch σ.table e.calls) (hbase : Between σ c f k w s)
    (hcode : code.HasAt k (u.place.address σ.table.wordSize ++ F ++ [Instruction.store])) :
    Simulates σ.table img d
      ((do let v ← e.eval call f; let f ← Eval.assignVar f x v; return Flow.next f) w)
      (Continues σ c (k + 3 + F.length + 1)) s := by
  have hstore : code[k + 3 + F.length]? = some .store := by
    have := hcode.right.head
    rwa [List.length_append, ← Nat.add_assoc] at this
  rcases find?_cases hu with ⟨m, hm, hu⟩ | ⟨hnone, hu⟩
  · refine .after (leads_address_slot L hu hcode.left.left hbase.base) fun s₁ h₁ => ?_
    refine (he hfree hargs hcode.left.right hbase.sees h₁).bind fun v w' s' h' => ?_
    refine Simulates.bind (Q := fun f' w'' => Between σ c f' _ w'') ?_
      fun f' w'' s'' h'' => .ok (.here h'')
    have hslot := hbase.sees.slots x
    rw [hm, Option.bind_some, hu, Option.map_some] at hslot
    have hassign : Eval.assignVar f x v w' = .ok (f.set x v) w' := by
      rw [Eval.assignVar, hslot, Option.isSome_some, if_pos rfl]
    rw [hassign]
    exact .ok (h'.assign_slot L hm hu hbase hstore)
  · refine .after (leads_address_global L hu hcode.left.left hbase.base) fun s₁ h₁ => ?_
    refine (he hfree hargs hcode.left.right hbase.sees h₁).bind fun v w' s' h' => ?_
    refine Simulates.bind (Q := fun f' w'' => Between σ c f' _ w'') ?_
      fun f' w'' s'' h'' => .ok (.here h'')
    have hslot := hbase.sees.slots x
    rw [hnone, Option.map_none] at hslot
    have hglobal := h'.shows.globals x
    rw [hu, Option.map_some] at hglobal
    have hassign : Eval.assignVar f x v w' =
        .ok f { w' with globals := w'.globals.set x v } := by
      rw [Eval.assignVar, hslot, hglobal]
      rfl
    rw [hassign]
    exact .ok (h'.assign_global L hu hbase hstore)

/-- The value of a condition, and a jump if it is 0. -/
theorem simulates_branch {e : Expr} {F : Assembly} {g : Int32 → Eval Flow}
    (he : ExprSimulates σ code img d call f e F) (hfree : e.arrayFree)
    (hargs : ArgsMatch σ.table e.calls) (hbase : Between σ c f k w s)
    (hcode : code.HasAt k (F ++ [Instruction.jumpIfZero l])) (hl : code[n]? = some (.label l))
    (hg : ∀ v w' s', Between σ c f (if v = 0 then n else k + F.length + 1) w' s' →
      Simulates σ.table img d (g v w') (Continues σ c k') s') :
    Simulates σ.table img d ((do let v ← e.eval call f; g v) w) (Continues σ c k') s := by
  refine (he hfree hargs hcode.left hbase.sees hbase.base).bind fun v w' s' h' => ?_
  exact .after (At.branch L hbase hcode.right.head hl h') fun s₁ h₁ => hg v w' s₁ h₁

/-- A loop, round by round. -/
theorem simulates_repeatWhile {e : Expr} {F S : Assembly} {start done : String}
    {body : Bindings → Eval Flow}
    (hcode : code.HasAt k ([Instruction.label start] ++ F ++ [Instruction.jumpIfZero done] ++ S ++
      [Instruction.jump start, .label done]))
    (he : ∀ f, ExprSimulates σ code img d call f e F) (hfree : e.arrayFree)
    (hargs : ArgsMatch σ.table e.calls)
    (hbody : ∀ {f w s}, Between σ c f (k + 1 + F.length + 1) w s →
      Simulates σ.table img d (body f w) (Continues σ c (k + 1 + F.length + 1 + S.length)) s)
    (m : Nat) (hbase : Between σ c f k w s) :
    Simulates σ.table img d (repeatWhile (fun f => e.eval call f) body m f w)
      (Continues σ c (k + 1 + F.length + 1 + S.length + 2)) s := by
  simp only [List.append_assoc] at hcode
  have hdone := hcode.right.right.right.right.tail.head
  induction m generalizing f w s with
  | zero => exact .outOfFuel
  | succ m ih =>
    rw [repeatWhile]
    refine .after (hbase.line_label L hcode.left.head) fun s₁ h₁ => ?_
    have hcondition : code.HasAt (k + 1) (F ++ [Instruction.jumpIfZero done]) := by
      have := hcode.right
      rw [← List.append_assoc] at this
      exact this.left
    refine simulates_branch L (he f) hfree hargs h₁ hcondition hdone fun v w' s' h' => ?_
    by_cases hv : v = 0
    · rw [if_pos hv] at h' ⊢
      exact .ok (h'.line_label L hdone)
    · rw [if_neg hv] at h' ⊢
      refine (hbody h').bind fun r w₂ s₂ h₂ => ?_
      cases r with
      | next f₂ =>
        refine .after (Between.line_jump L hcode.right.right.right.right.head hcode.left.head h₂)
          fun s₃ h₃ => ih h₃
      | returned u => exact .ok (.here h₂)

/-- From the label of an arm on, the code runs its statement and goes on at line `k'`. -/
def ArmSimulates (σ : Scope) (code : Assembly) (img : Image) (d : Int)
    (call : String → List Int32 → Eval Int32) (n k' : Nat) (arm : SwitchCase) (label : String) :
    Prop :=
  ∃ j, code[j]? = some (.label label) ∧ ∀ {c f w s}, Between σ c f j w s →
    Simulates σ.table img d (arm.body.exec call n f w) (Continues σ c k') s

/-- The dispatch of a switch on the value `v`, case by case. -/
theorem simulates_dispatch {word : String} {a : Int} {otherwise : Bindings → Eval Flow}
    (ha : img.addresses[word]? = some a) (had : a < d) {cs : List SwitchCase}
    {labels : List String} (hlength : labels.length = cs.length)
    (harms : ∀ p ∈ cs.zip labels, ArmSimulates σ code img d call n k' p.1 p.2)
    (hcode : code.HasAt k (dispatch word cs labels))
    (hotherwise : ∀ {w s}, Between σ c f (k + (dispatch word cs labels).length) w s →
      Simulates σ.table img d (otherwise f w) (Continues σ c k') s)
    (hbase : Between σ c f k w s) (hv : s.memory.read a = v) :
    Simulates σ.table img d (SwitchCase.select call n v otherwise cs f w) (Continues σ c k') s := by
  induction cs generalizing labels k s with
  | nil => exact hotherwise (by simpa [dispatch] using hbase)
  | cons arm cs ih =>
    obtain ⟨u, body, loc⟩ := arm
    obtain ⟨label, labels, rfl⟩ := List.exists_cons_of_length_pos (l := labels) (by
      rw [hlength, List.length_cons]
      exact Nat.succ_pos _)
    obtain ⟨j, hj, harm⟩ := harms _ (List.mem_cons_self)
    have hsplit : dispatch word (.mk u body loc :: cs) (label :: labels) =
        [Instruction.loadi word] ++
          ([Instruction.push u, .sub, .jumpIfZero label] ++ dispatch word cs labels) := rfl
    rw [hsplit] at hcode hotherwise
    rw [List.length_append, List.length_append, ← Nat.add_assoc, ← Nat.add_assoc] at hotherwise
    rw [SwitchCase.select]
    refine .after (hbase.base.line_loadi L hcode.head ha had) fun s₁ hs₁ => ?_
    obtain ⟨h₁, hmem₁⟩ := hs₁
    rw [hv] at h₁ hmem₁
    refine .after (h₁.line_compare L hcode.right.left hj had) fun s₂ hs₂ => ?_
    obtain ⟨h₂, hmem₂⟩ := hs₂
    have hbase₂ := hbase.of_at h₂
    by_cases hvu : v = u
    · rw [if_pos hvu] at hbase₂ ⊢
      exact harm hbase₂
    · rw [if_neg hvu] at hbase₂ ⊢
      exact ih (by simpa using hlength) (fun p hp => harms p (List.mem_cons_of_mem _ hp))
        hcode.right.right hotherwise hbase₂ (hmem₂.trans hmem₁)

/-- The code of a switch: dispatch, arms and default. -/
theorem simulates_switch {e : Expr} {cs : List SwitchCase} {j : Nat} {G E D : Assembly}
    {otherwise : Bindings → Eval Flow}
    (hcode : code.HasAt k (switchCode j cs G E D))
    (harms : ∀ {kG kd}, code.HasAt kG G →
      code[kd]? = some (.label (placeLabel "switch_end" (j + 1))) →
      ∀ p ∈ cs.zip (caseLabelsFrom (j + 3) cs), ArmSimulates σ code img d call n (kd + 1) p.1 p.2)
    (he : ExprSimulates σ code img d call f e E) (hfree : e.arrayFree)
    (hargs : ArgsMatch σ.table e.calls)
    (hotherwise : ∀ {kD w s}, code.HasAt kD D → Between σ c f kD w s →
      Simulates σ.table img d (otherwise f w) (Continues σ c (kD + D.length)) s)
    (hbase : Between σ c f k w s) :
    Simulates σ.table img d
      ((do let v ← e.eval call f; SwitchCase.select call n v otherwise cs f) w)
      (Continues σ c (k + (switchCode j cs G E D).length)) s := by
  simp only [switchCode, List.append_assoc] at hcode
  have hG := hcode.right
  have hchoice := hG.right
  have hE := hchoice.right
  have hstore := hE.right
  have hdispatch := hstore.right
  have hdefault := hdispatch.right
  have hD := hdefault.right
  have hdone := hD.right.head
  have hend : k + (switchCode j cs G E D).length =
      k + 1 + G.length + 1 + E.length + 1 +
        (dispatch (scratchLabel "switch") cs (caseLabelsFrom (j + 3) cs)).length + 1 +
        D.length + 1 := by
    simp only [switchCode, List.length_append, List.length_cons, List.length_nil]
    omega
  rw [hend]
  refine .after (hbase.line_jump L hcode.head hchoice.head) fun s₁ h₁ => ?_
  refine .after (h₁.line_label L hchoice.head) fun s₂ h₂ => ?_
  refine (he hfree hargs hE.left h₂.sees h₂.base).bind fun v w' s₃ h₃ => ?_
  refine .after (h₃.line_storei L hstore.head) fun s₄ ⟨h₄, a, ha, had, hv⟩ => ?_
  refine simulates_dispatch L ha had (by simp) (harms hG.left hdone) hdispatch.left ?_
    (h₂.of_at h₄) hv
  intro w s h
  refine .after (h.line_label L hdefault.head) fun s₅ h₅ => ?_
  exact (hotherwise hD.left h₅).before fun r w'' s₆ h₆ => Continues.label L hdone h₆

end Statements

/-! ## All statements -/

section Rules

variable {σ : Scope} {code : Assembly} {img : Image} {d : Int}
  {call : String → List Int32 → Eval Int32}

/-- The code `F` does what the interpreter does with `st`. -/
def StmtSimulates (σ : Scope) (code : Assembly) (img : Image) (d : Int)
    (call : String → List Int32 → Eval Int32) (n : Nat) (st : Stmt) (F : Assembly) : Prop :=
  st.arrayFree → ArgsMatch σ.table st.calls → ∀ {k c f w s}, code.HasAt k F → Between σ c f k w s →
    Simulates σ.table img d (st.exec call n f w) (Continues σ c (k + F.length)) s

def StmtsSimulate (σ : Scope) (code : Assembly) (img : Image) (d : Int)
    (call : String → List Int32 → Eval Int32) (n : Nat) (ss : List Stmt) (F : Assembly) : Prop :=
  Stmt.allArrayFree ss → ArgsMatch σ.table (Stmt.callsAll ss) →
    ∀ {k c f w s}, code.HasAt k F → Between σ c f k w s →
    Simulates σ.table img d (Stmt.execAll call n ss f w) (Continues σ c (k + F.length)) s

/-- The code `F` has the arms of a switch whose end is labelled `done`. -/
def CasesSimulate (σ : Scope) (code : Assembly) (img : Image) (d : Int)
    (call : String → List Int32 → Eval Int32) (n : Nat) (done : String) (cs : List SwitchCase)
    (labels : List String) (F : Assembly) : Prop :=
  SwitchCase.allArrayFree cs → ArgsMatch σ.table (SwitchCase.callsAll cs) →
    ∀ {k kd}, code.HasAt k F → code[kd]? = some (.label done) →
    ∀ p ∈ cs.zip labels, ArmSimulates σ code img d call n (kd + 1) p.1 p.2

theorem Stmt.simulates (L : Linked σ.table code img d)
    (hcall : CallsSimulate σ.table code img d call) (n : Nat) :
    Stmt.Rules σ (fun st _ F _ => StmtSimulates σ code img d call n st F)
      (fun ss _ F _ => StmtsSimulate σ code img d call n ss F)
      (fun done cs labels _ F _ => CasesSimulate σ code img d call n done cs labels F) where
  assign {x e l v ls F} hv he hfree hargs k c f w s hcode h := by
    have he := ((Expr.simulates L hcall (f := f)).code e he).1
    rw [Stmt.exec, List.length_append, List.length_append, ← Nat.add_assoc, ← Nat.add_assoc]
    exact simulates_assign L hv he hfree hargs h hcode
  assignAt _ _ _ hfree := by cases hfree
  ifThen {e st l ls ls' F S} he hst hfree hargs k c f w s hcode h := by
    have he := ((Expr.simulates L hcall (f := f)).code e he).1
    rw [Stmt.arrayFree, Bool.and_eq_true] at hfree
    have hend := hcode.right.head
    rw [List.length_append, ← Nat.add_assoc, Stmt.exec]
    refine simulates_branch L he hfree.1 hargs.left h hcode.left.left hend fun v w' s' h' => ?_
    by_cases hv : v = 0
    · rw [if_pos hv] at h' ⊢
      exact .ok (h'.line_label L hend)
    · rw [if_neg hv] at h' ⊢
      have hS := hcode.left.right
      rw [List.length_append, ← Nat.add_assoc] at hS
      refine (hst hfree.2 hargs.right hS h').before fun r w'' s'' h'' => ?_
      rw [List.length_append, List.length_append, ← Nat.add_assoc, ← Nat.add_assoc] at hend ⊢
      exact Continues.label L hend h''
  ifElse {e st st' l ls ls₁ ls' F S T} he hst hst' hfree hargs k c f w s hcode h := by
    have he := ((Expr.simulates L hcall (f := f)).code e he).1
    simp only [Stmt.arrayFree, Bool.and_eq_true] at hfree
    have hcondition := hcode.left.left.left.left
    simp only [List.append_assoc] at hcode
    have hS := hcode.right.right
    have hmid := hS.right
    have hT := hmid.right
    have hend := hT.right.head
    simp only [List.length_append, ← Nat.add_assoc]
    rw [Stmt.exec]
    refine simulates_branch L he hfree.1.1 hargs.left.left h hcondition hmid.tail.head
      fun v w' s' h' => ?_
    by_cases hv : v = 0
    · rw [if_pos hv] at h' ⊢
      refine .after (h'.line_label L hmid.tail.head) fun s₁ h₁ => ?_
      refine (hst' hfree.2 hargs.right hT.left h₁).before fun r w'' s'' h'' => ?_
      exact Continues.label L hend h''
    · rw [if_neg hv] at h' ⊢
      refine (hst hfree.1.2 hargs.left.right hS.left h').before fun r w'' s'' h'' => ?_
      exact Continues.jump L hmid.head hend h''
  whileDo {e st l ls ls' F S} he hst hfree hargs k c f w s hcode h := by
    have he := fun f => ((Expr.simulates L hcall (f := f)).code e he).1
    rw [Stmt.arrayFree, Bool.and_eq_true] at hfree
    have hS := hcode.left.right
    simp only [List.length_append, ← Nat.add_assoc] at hS ⊢
    rw [Stmt.exec]
    exact simulates_repeatWhile L hcode he hfree.1 hargs.left
      (fun h => hst hfree.2 hargs.right hS h) n h
  switch {e cs st l ls ls₁ ls' G E D} _ hcs he hst hfree hargs k c f w s hcode h := by
    have he := ((Expr.simulates L hcall (f := f)).code e he).1
    simp only [Stmt.arrayFree, Bool.and_eq_true] at hfree
    rw [Stmt.exec]
    exact simulates_switch L hcode (hcs hfree.1.2 hargs.left.left) he hfree.1.1 hargs.left.right
      (fun hD h => hst hfree.2 hargs.right hD h) h
  block hss hfree hargs _ _ _ _ _ hcode h := hss hfree hargs hcode h
  print {kind e l ls F} he hfree hargs k c f w s hcode h := by
    have he := ((Expr.simulates L hcall (f := f)).code e he).1
    rw [Stmt.exec, List.length_append, ← Nat.add_assoc]
    refine (he hfree hargs hcode.left h.sees h.base).bind fun v w' s' h' => ?_
    exact .ok ((kind.leads_code L hcode.right h').trans fun s'' h'' => .here (h.of_at h''))
  newline {l ls} _ _ k c f w s hcode h := by
    rw [Stmt.exec]
    exact .ok ((leads_newline L hcode h.base).trans fun s' h' => .here (h.of_at h'))
  ret_some {m e l ls F} hm he hfree hargs k c f w s hcode h := by
    have he := ((Expr.simulates L hcall (f := f)).code e he).1
    rw [Stmt.exec]
    refine (he hfree hargs hcode.left h.sees h.base).bind fun v w' s' h' => ?_
    exact .ok (h'.leave L hm h hcode.right)
  ret_none {m l ls} hm _ _ k c f w s hcode h := by
    rw [Stmt.exec]
    exact .ok ((h.base.line_push L hcode.head).trans fun s' h' => h'.leave L hm h hcode.tail)
  call {g es l m ls F} hm hes hfree hargs k c f w s hcode h := by
    have hes := ((Expr.simulates L hcall (f := f)).reversed es hes).1
    have hlength : es.length = m.params.length := hargs.right ⟨g, es.length⟩ (by simp) m hm
    have hstore := hcode.right.head
    simp only [List.length_append, ← Nat.add_assoc] at hstore ⊢
    rw [Stmt.exec]
    refine (hes hfree hargs.left hcode.left.left h.sees h.base).bind fun us w₁ s₁ h₁ => ?_
    have hcallCode := hcode.left.right
    rw [← h₁.1] at hcallCode
    refine (hcall hm (h₁.1.trans hlength) hcallCode h₁.2).bind fun v w₂ s₂ h₂ => ?_
    exact .ok ((h₂.line_storei L hstore).trans fun s₃ h₃ => .here (h.of_at h₃.1))
  all_nil _ _ _ _ _ _ _ _ h := .ok (.here h)
  all_cons {st ss ls ls₁ ls' F G} hst hss hfree hargs k c f w s hcode h := by
    rw [Stmt.allArrayFree, Bool.and_eq_true] at hfree
    rw [Stmt.execAll, List.length_append, ← Nat.add_assoc]
    refine (hst hfree.1 hargs.left hcode.left h).bind fun r w' s' h' => ?_
    cases r with
    | next f' => exact hss hfree.2 hargs.right hcode.right h'
    | returned u => exact .ok (.here h')
  cases_nil _ _ _ _ _ _ p hp := by cases hp
  cases_cons {done v st l cs label labels ls ls₁ ls' F G} hst hcs hfree hargs k kd hcode hdone
      p hp := by
    rw [SwitchCase.allArrayFree, Bool.and_eq_true] at hfree
    rcases List.mem_cons.1 hp with rfl | hp
    · refine ⟨k, hcode.head, fun h => ?_⟩
      refine .after (h.line_label L hcode.head) fun s₁ h₁ => ?_
      refine (hst hfree.1 hargs.left hcode.left.left.right h₁).before fun r w' s' h' => ?_
      have hjump := hcode.left.right.head
      rw [List.length_append, ← Nat.add_assoc] at hjump
      exact Continues.jump L hjump hdone h'
    · exact hcs hfree.2 hargs.right hcode.right hdone p hp

end Rules

end Lpl
