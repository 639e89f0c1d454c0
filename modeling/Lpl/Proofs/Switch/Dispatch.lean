import Lpl.Proofs.Lines
import Lpl.Proofs.Simulation.Expr
import Lpl.Proofs.Switch.Layout

/-!
# Dispatch of switches

The dispatch takes the subject off the stack into the scratch word and compares it with the values of
the cases, one after another. A comparison takes four lines and two words of the stack.

**Theorem (`compile_dispatch`).** In compiled code, from the line of a switch that keeps its subject the
machine comes to the label of the one case with that value, or to that of the default if there is none.
On the way it executes lines of the dispatch only, at most four for each case, and changes nothing but
the scratch word and two words at the end of the stack. No arm runs into another: behind each is a jump
to the end of the switch.
-/

namespace Lpl

open Machine
open Assembly (HasAt)

/-- The dispatch of the switch is over in `s'`, with the subject that was on the stack of `s`: it is in
the scratch word at address `a`, and the machine is at the arm of its case or at the default. -/
structure Switch.Chosen (sw : Switch) (L : Lines) (w a : Int) (s s' : State) : Prop where
  line : (∃ c, (c, s'.pc) ∈ sw.cases.zip L.arms ∧ c.value = s.memory.read s.sp ∧
      ∀ c' ∈ sw.cases, c'.value = s.memory.read s.sp → c' = c) ∨
    (∀ c ∈ sw.cases, c.value ≠ s.memory.read s.sp) ∧ s'.pc = L.otherwise
  sp : s'.sp = s.sp + w
  fp : s'.fp = s.fp
  heap : s'.heap = s.heap
  output : s'.output = s.output
  callDepths : s'.callDepths = s.callDepths
  word : s'.memory.read a = s.memory.read s.sp
  memory : ∀ x, x ≠ a → x < s.sp - w ∨ s.sp + w ≤ x → s'.memory.read x = s.memory.read x

/-- The state once the word on top of the stack is in the word at address `a`. -/
def Machine.State.keep (w a : Int) (s : State) : State :=
  ((s.drop w).store a (s.memory.read s.sp)).goto (s.pc + 1)

/-- What a dispatch leaves is what it found, once the subject is kept. -/
theorem Switch.chosen_of_atop {sw : Switch} {L : Switch.Lines} {w a : Int} {s s' : State}
    (hvalues : (sw.cases.map SwitchCase.value).Nodup) (hroom : a < s.sp - w)
    (hline : (∃ c, (c, s'.pc) ∈ sw.cases.zip L.arms ∧ c.value = s.memory.read s.sp) ∨
      (∀ c ∈ sw.cases, c.value ≠ s.memory.read s.sp) ∧ s'.pc = L.otherwise)
    (h : Atop w 2 (s.keep w a) s'.pc [] s') : sw.Chosen L w a s s' where
  line := by
    refine hline.imp_left ?_
    rintro ⟨c, hmem, hc⟩
    refine ⟨c, hmem, hc, fun c' hmem' hc' => ?_⟩
    exact List.inj_on_of_nodup_map hvalues hmem' (List.of_mem_zip hmem).1 (hc'.trans hc.symm)
  sp := h.stacked.sp.trans (by simp [State.keep])
  fp := h.stacked.fp
  heap := h.heap
  output := h.output
  callDepths := h.stacked.callDepths
  word := by
    rw [h.read_eq (.inl (by simp [State.keep]; omega))]
    exact Memory.read_write_self _ _ _
  memory x hx hout := by
    rw [h.read_eq (by simp [State.keep]; omega)]
    exact Memory.read_write_of_ne _ (Ne.symm hx) _

section

variable {img : Image} {base s : State} {k lo hi : Nat} {a : Int} {v : Int32} {word : String}

/-- The comparisons of a dispatch, case by case. -/
theorem comesWithin_dispatch {cs : List SwitchCase} {labels : List String} {starts : List Nat}
    (ha : img.addresses[word]? = some a) (hv : base.memory.read a = v)
    (hroom : a < base.sp - (2 : Nat) * img.wordSize)
    (hcode : HasAt img.code.toList k (dispatch word cs labels))
    (hlabels : List.Forall₂ (fun l m => img.places[l]? = some m) labels starts)
    (hlength : labels.length = cs.length) (hlo : lo ≤ k) (hhi : k + 4 * cs.length ≤ hi)
    (h : Atop img.wordSize 2 base k [] s) :
    ComesWithin img lo hi (fun s' => Atop img.wordSize 2 base s'.pc [] s' ∧
      ((∃ c, (c, s'.pc) ∈ cs.zip starts ∧ c.value = v) ∨
        (∀ c ∈ cs, c.value ≠ v) ∧ s'.pc = k + 4 * cs.length)) (4 * cs.length) s := by
  induction cs generalizing k labels starts s with
  | nil =>
    refine .here ⟨h.pc ▸ h, .inr ⟨fun c hc => absurd hc List.not_mem_nil, h.pc⟩⟩
  | cons c cs ih =>
    cases hlabels with
    | nil => cases hlength
    | @cons l m labels starts hl hlabels =>
    have hsplit : dispatch word (c :: cs) (l :: labels) =
        ([.loadi word, .push c.value, .sub, .jumpIfZero l] : Assembly) ++ dispatch word cs labels := rfl
    rw [hsplit] at hcode
    have hnext : HasAt img.code.toList (k + 4) (dispatch word cs labels) := hcode.right
    rw [List.length_cons] at hhi hlength
    have hload := h.line_loadi hcode.left.head ha (Nat.zero_lt_two)
    rw [h.read_eq (.inl hroom), hv] at hload
    refine .step (by rw [h.pc]; exact hlo) (by rw [h.pc]; omega) hload fun s₁ h₁ => ?_
    refine .step (by rw [h₁.pc]; omega) (by rw [h₁.pc]; omega)
      (h₁.line_push hcode.left.tail.head Nat.one_lt_two) fun s₂ h₂ => ?_
    refine .step (by rw [h₂.pc]; omega) (by rw [h₂.pc]; omega)
      (h₂.line_sub hcode.left.tail.tail.head) fun s₃ h₃ => ?_
    refine .step (by rw [h₃.pc]; omega) (by rw [h₃.pc]; omega)
      (h₃.line_jumpIfZero hcode.left.tail.tail.tail.head hl) fun s₄ h₄ => ?_
    by_cases hc : v = c.value
    · rw [if_pos ((word_sub_eq_zero _ _).2 hc)] at h₄
      refine .here ⟨h₄.pc ▸ h₄, .inl ⟨c, ?_, hc.symm⟩⟩
      rw [h₄.pc]
      exact List.mem_cons_self
    · rw [if_neg (fun hz => hc ((word_sub_eq_zero _ _).1 hz))] at h₄
      have hrest := ih hnext hlabels (Nat.succ.inj hlength) (by omega) (by omega) h₄
      refine hrest.imp fun s' hs' => ⟨hs'.1, hs'.2.imp ?_ ?_⟩
      · rintro ⟨c', hmem, hvalue⟩
        exact ⟨c', List.mem_cons_of_mem _ hmem, hvalue⟩
      · rintro ⟨hnone, hpc⟩
        refine ⟨?_, by rw [hpc, List.length_cons]; omega⟩
        exact List.forall_mem_cons.2 ⟨Ne.symm hc, hnone⟩

/-- The whole dispatch, from the line that keeps the subject. -/
theorem Switch.Stands.comesWithin {sw : Switch} {σ : Scope} {L : Switch.Lines}
    (hsw : sw.Stands σ img.code.toList s.pc L) (hw : 0 < img.wordSize)
    (hplaces : ∀ (m : Nat) l, img.code.toList[m]? = some (.label l) → img.places[l]? = some m)
    (ha : img.addresses[scratchLabel "switch"]? = some a) (hs : s.sp < stackTop)
    (hroom : a < s.sp - img.wordSize) :
    ComesWithin img s.pc L.otherwise (sw.Chosen L img.wordSize a s) (4 * sw.cases.length + 1) s := by
  obtain ⟨labels, hcode, hlabels⟩ := hsw.dispatch
  obtain ⟨_, -, harms⟩ := hsw.arms
  have hlength : labels.length = sw.cases.length := hlabels.length_eq.trans harms.length_eq.symm
  have hend := hsw.otherwise
  have hstep : step img s = .ok true (s.keep img.wordSize a) :=
    step_storei hs (by rw [← Array.getElem?_toList]; exact hcode.head) ha
  have hkept : Goes img (· = s.keep img.wordSize a) s := ⟨_, hstep, rfl⟩
  refine .step (Nat.le_refl _) (by omega) hkept ?_
  rintro _ rfl
  have hatop : Atop img.wordSize 2 (s.keep img.wordSize a) (s.pc + 1) [] (s.keep img.wordSize a) :=
    .refl hw (by simpa [State.keep] using hs)
  have hplaced := hlabels.imp fun l m => hplaces m l
  have hword : (s.keep img.wordSize a).memory.read a = s.memory.read s.sp :=
    Memory.read_write_self _ _ _
  have hfree : a < (s.keep img.wordSize a).sp - (2 : Nat) * img.wordSize := by
    simp [State.keep]
    omega
  have hrest : ComesWithin img s.pc L.otherwise _ _ _ :=
    comesWithin_dispatch ha hword hfree hcode.tail hplaced hlength (Nat.le_succ _) (by omega) hatop
  refine hrest.imp fun s' hs' => ?_
  rw [← hend] at hs'
  exact chosen_of_atop hsw.values hroom hs'.2 hs'.1

end

section Program

variable {s : Settings} {p : Program} {code : Assembly}

/-- Each switch of an accepted program has a line that keeps its subject, in order, and no other line
does. From there the machine comes to the arm of the one case with the value on top of the stack, or to
the default, as long as the stack and one more word are above the data segment. A jump behind an arm goes
to the end of the switch. -/
theorem compile_dispatch (h : (p.compile s).result = .ok code) :
    ∃ t, (Table.ofProgram s p).result = .ok t ∧
      List.Forall₂ (fun (sw : Switch) (k : Nat) => ∃ (σ : Scope) (L : Switch.Lines) (a : Int),
          σ.table = t ∧ sw.Stands σ code k L ∧
          (Image.ofAssembly s.wordSize code).addresses[scratchLabel "switch"]? = some a ∧
          (∀ st : State, st.pc = k → st.sp < stackTop →
            (Image.dataWords code).length * s.wordSize ≤ st.sp - s.wordSize →
            ComesWithin (.ofAssembly s.wordSize code) k L.otherwise (sw.Chosen L s.wordSize a st)
              (4 * sw.cases.length + 1) st) ∧
          ∀ (st : State) (done : String), code[L.done]? = some (.label done) →
            code[st.pc]? = some (.jump done) →
            step (.ofAssembly s.wordSize code) st = .ok true (st.goto L.done))
        p.switches (code.idxsOf (.storei (scratchLabel "switch"))) := by
  obtain ⟨t, ls, ht, hcode⟩ := Program.compile_eq_ok.1 h
  have hplaces : ∀ (m : Nat) l, code[m]? = some (.label l) →
      (Image.ofAssembly t.wordSize code).places[l]? = some m :=
    fun m l => getElem?_placesOf (nodup_places_program ht hcode)
  refine ⟨t, Table.ofProgram_eq_ok.2 ht, ?_⟩
  rw [ht.wordSize]
  refine (switchesOf_program hcode code 0 (.of_eq (A := []) (D := []) (by simp))).imp ?_
  rintro sw k ⟨σ, L, hσ, hsw⟩
  have hword : scratchLabel "switch" ∈ code.words := by
    obtain ⟨labels, hat, -⟩ := hsw.dispatch
    exact List.mem_filterMap.2 ⟨keepSubject, List.mem_of_getElem? hat.head, rfl⟩
  obtain ⟨a, ha, -, hdata⟩ := exists_address_word ht hcode hword
  refine ⟨σ, L, a, hσ, hsw, ha, ?_, ?_⟩
  · rintro st rfl hsp hroom
    have hsw' : sw.Stands σ (Image.ofAssembly t.wordSize code).code.toList st.pc L := hsw
    have hroom' : a < st.sp - (Image.ofAssembly t.wordSize code).wordSize :=
      Int.lt_of_lt_of_le hdata hroom
    exact hsw'.comesWithin ht.wordSize_pos hplaces ha hsp hroom'
  · intro st done hdone hjump
    exact step_jump (List.getElem?_toArray.trans hjump) (hplaces _ _ hdone)

end Program

/-- A switch with a switch in its first arm. -/
def nestedSwitch : Program where
  globals := [⟨"x", ⟨0⟩, ⟨1, 1⟩⟩]
  body := [.switch (.var "x" ⟨2, 9⟩)
    [.mk (-1) (.switch (.int 2 ⟨3, 21⟩) [] (.newline ⟨3, 35⟩) ⟨3, 13⟩) ⟨3, 1⟩,
      .mk 3 (.assign "x" (.int 0 ⟨4, 13⟩) ⟨4, 9⟩) ⟨4, 1⟩] (.newline ⟨5, 10⟩) ⟨2, 1⟩]
  methods := []

/-- A state in which `nestedSwitch` is at the dispatch of its outer switch, with 3 on the stack. -/
def nestedSwitchAt : State := { memory := .write .empty 1000 3, sp := 1000, pc := 23 }

/-- The outer switch has its dispatch behind the inner one, and 3 selects its second arm. -/
theorem compile_dispatch_nestedSwitch :
    ∃ code, (nestedSwitch.compile {}).result = .ok code ∧
      code.idxsOf (.storei (scratchLabel "switch")) = [5, 23] ∧
      ∃ (sw : Switch) (σ : Scope) (L : Switch.Lines) (a : Int), nestedSwitch.switches[1]? = some sw ∧
        sw.Stands σ code 23 L ∧
        ComesWithin (.ofAssembly 4 code) 23 L.otherwise (sw.Chosen L 4 a nestedSwitchAt) 9
          nestedSwitchAt := by
  have hcode : ∃ code, (nestedSwitch.compile {}).result = .ok code ∧
      code.idxsOf (.storei (scratchLabel "switch")) = [5, 23] ∧ (Image.dataWords code).length = 2 :=
    ⟨_, rfl, by decide +kernel⟩
  obtain ⟨code, h, hlines, hdata⟩ := hcode
  obtain ⟨t, -, hall⟩ := compile_dispatch h
  rw [hlines] at hall
  obtain ⟨-, ⟨σ, L, a, -, hsw, -, hrun, -⟩, -⟩ :=
    (List.forall₂_cons.1 hall).imp_right fun hrest => List.forall₂_cons.1 hrest
  refine ⟨code, h, hlines, _, σ, L, a, rfl, hsw, hrun nestedSwitchAt rfl (by decide) ?_⟩
  rw [hdata]
  decide

end Lpl
