import Lpl.Proofs.Balance.Frames
import Lpl.Proofs.Linking
import Lpl.Proofs.StackHeight

/-!
# Runs keep the stack in balance

**Theorem (`compile_run_balanced`).** Let a program without arrays, whose calls have as many arguments as
the methods have parameters, compile to `code`. On a run of `code` the machine goes on from line to line
until it halts, with an empty stack then, or divides by 0. So no line finds too few words on the stack, and
every `ret` leaves just the value of the call in place of the arguments.

As for the preservation of what programs do, the code is shorter than 2³¹ lines, and only states count that
the run comes to with its stack above the data segment all the way.

The compiler does not compare calls with the methods, and a `ret` gives up as many words as the method
declares. So where a call does not match, the stack is not in balance: `run_unbalanced_surplusArgument`.
-/

namespace Lpl

open Machine

/-! ## Bodies -/

/-- Jumps go to labels of the code itself. -/
theorem JumpsWithin.label_mem {F : Assembly} {ls ls' : Labels} (h : JumpsWithin F ls ls') {l : String}
    (hl : l ∈ F.targets) : labelMark l = some '$' ∧ .label l ∈ F := by
  obtain ⟨⟨x, n, rfl, -⟩, hcount⟩ := h l hl
  exact ⟨labelMark_placeLabel x n, List.count_pos_iff.1 (by omega)⟩

section Program

variable {s : Settings} {p : Program} {t : Table} {ls : Labels} {code : Assembly}

/-- The main body is laid at the start of the code. -/
theorem laid_main (ht : WellDeclared s p t) (h : Emits (p.code ⟨t, none⟩) {} () code ls)
    (hfree : p.arrayFree) (hmatch : p.CallsMatch) : ∃ F, Laid code ⟨t, none⟩ 0 F := by
  obtain ⟨B, ls₁, G, hB, -, hcode⟩ := emits_program.1 h
  rw [Program.arrayFree, Bool.and_eq_true] at hfree
  have hargs : ArgsMatch t (Stmt.callsAll p.body) :=
    argsMatch_program ht hmatch fun c hc => List.mem_append_left _ hc
  have hbody : Walk ⟨t, none⟩ [] B [] := (Stmt.walks ⟨t, none⟩).all _ hB hfree.1 hargs
  have hjumps := ((Stmt.fragmentRules ⟨t, none⟩).all _ hB).jumpsWithin
  have htargets : Assembly.targets (B ++ [Instruction.halt]) = B.targets := by
    rw [Assembly.targets_append]
    exact List.append_nil _
  refine ⟨B ++ [Instruction.halt], ?_, ⟨[], hbody.append (.single (.halt rfl))⟩, .inl List.getLast?_concat,
    fun {l} hl => ?_⟩
  · exact .of_eq (A := []) (by rw [hcode, List.append_assoc]; rfl)
  · obtain ⟨hmark, hmem⟩ := hjumps.label_mem (htargets ▸ hl)
    exact ⟨hmark, List.mem_append_left _ hmem⟩

theorem methodsLaid_program (ht : WellDeclared s p t) (h : Emits (p.code ⟨t, none⟩) {} () code ls)
    (hfree : p.arrayFree) (hmatch : p.CallsMatch) : MethodsLaid code t := by
  intro g m hm
  obtain ⟨m', k, B, ls₁, ls₂, -, -, hat, hB, hfree, hargs⟩ := methodsLinked_program ht h hfree hmatch hm
  have hbody := (Stmt.walks ⟨t, some m⟩).all _ hB hfree hargs
  have hjumps := ((Stmt.fragmentRules ⟨t, some m⟩).all _ hB).jumpsWithin.method g m
  have hlabel : Walk ⟨t, some m⟩ [] [.label (methodLabel g)] [] :=
    .single (.label fun hmark => by simp at hmark)
  have hlocals : Walk ⟨t, some m⟩ [] (List.replicate m.locals.length (.push 0))
      (Scope.floor ⟨t, some m⟩) := by
    simpa [Scope.floor] using Walk.locals (σ := ⟨t, some m⟩) (K := []) m.locals.length
  have hret : Walk ⟨t, some m⟩ (Scope.floor ⟨t, some m⟩)
      [.push 0, .push (.ofNat m.frameSize), .ret] [] := .cons .value (.push_ret rfl _)
  exact ⟨k, methodCode g m B, hat.head, hat, ⟨[], ((hlabel.append hlocals).append hbody).append hret⟩,
    .inr (List.getLast?_append_of_ne_nil _ (List.cons_ne_nil _ _)), hjumps.label_mem⟩

end Program

/-! ## Runs -/

/-- The run of the image comes to the state, and on the way the stack is above the `d` bytes of the data
segment. -/
inductive Visits (img : Image) (d : Int) : State → Prop
  | start : d ≤ (initial img).sp → Visits img d (initial img)
  | next {s s'} : Visits img d s → step img s = .ok true s' → d ≤ s'.sp → Visits img d s'

namespace Visits

variable {img : Image} {d : Int} {s s' : State}

theorem le (h : Visits img d s) : d ≤ s.sp := by
  cases h with
  | start hd => exact hd
  | next _ _ hd => exact hd

/-- States stay balanced along the run. -/
theorem balanced {t : Table} {code : Assembly} (L : Linked t code img d)
    (hmethods : MethodsLaid code t) (hstart : Balanced code t (initial img)) (h : Visits img d s) :
    Balanced code t s := by
  induction h with
  | start => exact hstart
  | next hvisits hstep hd ih =>
    cases ih.fares L hmethods hvisits.le with
    | goes hgoes hbalanced =>
      cases hstep.symm.trans hgoes
      exact hbalanced hd
    | halts hhalts _ => cases hstep.symm.trans hhalts
    | divides hdivides => cases hstep.symm.trans hdivides

end Visits

theorem compile_run_balanced {s : Settings} {p : Program} {code : Assembly}
    (h : (p.compile s).result = .ok code) (hfree : p.arrayFree) (hmatch : p.CallsMatch)
    (hshort : code.length < 2147483648) {img : Image} (himg : img = Image.ofAssembly s.wordSize code)
    {m : State} (hm : Visits img ((Image.dataWords code).length * s.wordSize) m) :
    (∃ m', step img m = .ok true m') ∨
      (step img m = .ok false m ∧ m.depth s.wordSize = 0) ∨
      ∃ m', step img m = .error .divisionByZero m' := by
  obtain ⟨t, ls, ht, hcode⟩ := Program.compile_eq_ok.1 h
  rw [ht.wordSize] at himg hm ⊢
  subst himg
  have L := linked_program ht hcode hshort
  have hmethods : MethodsLaid code t := methodsLaid_program ht hcode hfree hmatch
  obtain ⟨F, hmain⟩ := laid_main ht hcode hfree hmatch
  have hstart : Balanced code t (initial (Image.ofAssembly t.wordSize code)) :=
    ⟨none, [], hmain.stands, ⟨by simp [initial], by simp⟩, .main rfl⟩
  cases (hm.balanced L hmethods hstart).fares L hmethods hm.le with
  | goes hgoes _ => exact .inl ⟨_, hgoes⟩
  | halts hhalts hsp =>
    refine .inr (.inl ⟨hhalts, ?_⟩)
    rw [State.depth, hsp, Int.sub_self, Int.zero_tdiv]
  | divides hdivides => exact .inr (.inr ⟨_, hdivides⟩)

/-! ## One argument -/

/-- A method with the given parameters, and a call of it with one argument. -/
def oneArgument (params : List Decl) : Program where
  globals := []
  body := [.call "f" [.int 1 ⟨1, 9⟩] ⟨1, 7⟩]
  methods := [⟨⟨"f", none, params, []⟩, [], ⟨1, 17⟩⟩]

/-- Its code, where the frame of the method has `size` words. -/
def oneArgumentCode (size : Int32) : Assembly :=
  [.push 1, .push 1, .call "$_f", .storei "$s_discard", .halt,
    .label "$_f", .push 0, .push size, .ret,
    .data, .word "$s_discard" 0]

/-- The run comes to the `ret`, with nothing on the stack before the arguments of the call. -/
theorem visits_ret_oneArgument (size : Int32) :
    ∃ m, Visits (Image.ofAssembly 4 (oneArgumentCode size)) 4 m ∧ m.pc = 8 ∧ m.sp = stackTop - 20 ∧
      m.memory.read m.sp = size ∧ m.callDepths = [0] := by
  have hplace : (Image.ofAssembly 4 (oneArgumentCode size)).places["$_f"]? = some 5 :=
    getElem?_placesOf (List.nodup_singleton _) rfl
  have h₀ : Visits (Image.ofAssembly 4 (oneArgumentCode size)) 4 _ := .start (of_decide_eq_true rfl)
  have h₁ := h₀.next (step_push rfl) (of_decide_eq_true rfl)
  have h₂ := h₁.next (step_push rfl) (of_decide_eq_true rfl)
  have h₃ := h₂.next (step_call (of_decide_eq_true rfl) rfl hplace) (of_decide_eq_true rfl)
  have h₄ := h₃.next (step_label rfl) (of_decide_eq_true rfl)
  have h₅ := h₄.next (step_push rfl) (of_decide_eq_true rfl)
  have h₆ := h₅.next (step_push rfl) (of_decide_eq_true rfl)
  refine ⟨_, h₆, rfl, rfl, by simp, ?_⟩
  simp [State.depth, initial, Image.ofAssembly, stackTop]

/-- At the `ret` of a method with one parameter. -/
theorem compile_run_balanced_oneArgument :
    ((oneArgument [⟨"n", ⟨0⟩, ⟨1, 24⟩⟩]).compile {}).result = .ok (oneArgumentCode 1) ∧
      ∃ m, Visits (Image.ofAssembly 4 (oneArgumentCode 1)) 4 m ∧ (oneArgumentCode 1)[m.pc]? = some .ret ∧
        ((∃ m', step (Image.ofAssembly 4 (oneArgumentCode 1)) m = .ok true m') ∨
          (step (Image.ofAssembly 4 (oneArgumentCode 1)) m = .ok false m ∧ m.depth 4 = 0) ∨
          ∃ m', step (Image.ofAssembly 4 (oneArgumentCode 1)) m = .error .divisionByZero m') := by
  obtain ⟨m, hm, hpc, -⟩ := visits_ret_oneArgument 1
  have hcompile : ((oneArgument [⟨"n", ⟨0⟩, ⟨1, 24⟩⟩]).compile {}).result = .ok (oneArgumentCode 1) :=
    rfl
  exact ⟨hcompile, m, hm, hpc ▸ rfl,
    compile_run_balanced hcompile rfl (by decide) (by decide) rfl hm⟩

/-- The compiler accepts the program too if the method has no parameters, and then the `ret` leaves the
argument on the stack. -/
theorem run_unbalanced_surplusArgument :
    ((oneArgument []).compile {}).result = .ok (oneArgumentCode 0) ∧ (oneArgument []).arrayFree ∧
      ∃ m m', Visits (Image.ofAssembly 4 (oneArgumentCode 0)) 4 m ∧
        step (Image.ofAssembly 4 (oneArgumentCode 0)) m = .error (.unbalancedReturn 2 1) m' := by
  obtain ⟨m, hm, hpc, hsp, hsize, hdepths⟩ := visits_ret_oneArgument 0
  have hdepth : (((m.drop 4).drop 4).leave 4 (m.memory.read m.sp) (m.memory.read (m.sp + 4))).depth 4 =
      2 := by
    rw [hsize, State.depth, State.sp_leave, State.sp_drop, State.sp_drop, hsp]
    rfl
  have hi : (Image.ofAssembly 4 (oneArgumentCode 0)).code[m.pc]? = some .ret := hpc ▸ rfl
  have hstep := step_ret_unbalanced (hsp ▸ of_decide_eq_true rfl) (hsp ▸ of_decide_eq_true rfl) hi
    hdepths (hdepth ▸ of_decide_eq_true rfl)
  have hword : (Image.ofAssembly 4 (oneArgumentCode 0)).wordSize = 4 := rfl
  rw [hword, hdepth] at hstep
  exact ⟨rfl, rfl, m, _, hm, hstep⟩

end Lpl
