import Lpl.Proofs.Linking

/-!
# Compiled programs do what the interpreter does

**Theorem (`compile_preserves`).** Let a program without arrays, whose calls have as many arguments as
the methods have parameters, compile to `code`. The interpreter is never stuck on it. When it ends,
the machine ends in the same way on `code`: it has written the same, each global's word holds its
value, and after a normal end the stack is empty.

Two limits of the machine are assumed away. Line numbers are kept in words, so the code is shorter
than 2³¹ lines, and the run is `Safe`: its stack does not grow into the data segment.

At the start every word is 0 and the stack is empty, which is what the world of the program says. So
the statements of the main body can be simulated, with calls of any depth that the interpreter needs.
-/

namespace Lpl

open Machine

/-- The machine ends so on the code of `img`, and is in the state `m` then. -/
def Machine.EndsWith (img : Image) (e : Ending) (m : State) : Prop :=
  ∃ n, runFor img n (initial img) =
    match e with
    | .normal => .ok () m
    | .divisionByZero => .error .divisionByZero m

section Program

variable {s : Settings} {p : Program} {t : Table} {ls : Labels} {code : Assembly}

/-- The initial state shows the initial world. -/
theorem shows_initial (ht : WellDeclared s p t) (h : Emits (p.code ⟨t, none⟩) {} () code ls) :
    Shows t p.world (initial (Image.ofAssembly t.wordSize code)) where
  output := rfl
  globals x := by
    rw [Program.world, ← ht.globals, lookup_locals, Scope.global?, Option.map_map]
    congr 1
    funext v
    exact (read_initial ht h _).symm

/-- A global is declared, and its word is the one with its label. -/
theorem Shows.lookup_global (ht : WellDeclared s p t)
    (h : Emits (p.code ⟨t, none⟩) {} () code ls) {w : World} {m : State} (hm : Shows t w m)
    {g : Decl} (hg : g ∈ p.globals) :
    w.globals.lookup g.name = some (m.memory.read
      ((Image.ofAssembly t.wordSize code).address (variableLabel g.name))) := by
  have hdeclared : (Scope.slot? g.name t.globals).isSome := by
    rw [ht.globals]
    exact isSome_slot? hg
  obtain ⟨⟨i, ty⟩, hi⟩ := Option.isSome_iff_exists.1 hdeclared
  have hv : Scope.global? t g.name = some ⟨.global (i * t.wordSize), ty⟩ := by
    rw [Scope.global?, hi]
    rfl
  rw [hm.globals, hv, address_variableLabel ht h hv]
  rfl

/-- The main body starts with an empty stack, in no method. -/
theorem between_initial (ht : WellDeclared s p t) (h : Emits (p.code ⟨t, none⟩) {} () code ls)
    (c : Caller) : Between ⟨t, none⟩ c [] 0 p.world (initial (Image.ofAssembly t.wordSize code)) where
  pc := rfl
  sees := ⟨fun _ => rfl, fun hm => by cases hm⟩
  settled := ⟨rfl, rfl⟩
  shows := shows_initial ht h

/-- The code of a program does what its main body does, and comes to the `halt`. -/
theorem simulates_main (ht : WellDeclared s p t) (h : Emits (p.code ⟨t, none⟩) {} () code ls)
    (hfree : p.arrayFree) (hmatch : p.CallsMatch) (hshort : code.length < 2147483648) (n : Nat) :
    Simulates t (Image.ofAssembly t.wordSize code) ((Image.dataWords code).length * t.wordSize)
      (p.main n p.world)
      (fun _ w m => code[m.pc]? = some .halt ∧ m.sp = stackTop ∧ Shows t w m)
      (initial (Image.ofAssembly t.wordSize code)) := by
  have L := linked_program ht h hshort
  have hmethods : MethodsLinked p t code := methodsLinked_program ht h hfree hmatch
  obtain ⟨B, ls₁, G, hB, -, hcode⟩ := emits_program.1 h
  have hbody := (Stmt.simulates (σ := ⟨t, none⟩) L (callsSimulate L hmethods n) n).all p.body hB
  rw [Program.arrayFree, Bool.and_eq_true] at hfree
  have hargs : ArgsMatch t (Stmt.callsAll p.body) :=
    argsMatch_program ht hmatch fun c hc => List.mem_append_left _ hc
  have hat : code.HasAt 0 (B ++ [Instruction.halt]) :=
    .of_eq (A := []) (by rw [hcode, List.append_assoc]; rfl)
  refine (hbody hfree.1 hargs hat.left (between_initial ht h ⟨0, 0, [], 0, .empty⟩)).bind
    fun flow w m hflow => ?_
  cases flow with
  | next f =>
    have hflow : Between ⟨t, none⟩ _ f (0 + B.length) w m := hflow
    exact .ok (.here ⟨hflow.pc ▸ hat.right.head, hflow.settled.1, hflow.shows⟩)
  | returned v => exact absurd rfl hflow.1

theorem compile_preserves (h : (p.compile s).result = .ok code) (hfree : p.arrayFree)
    (hmatch : p.CallsMatch) (hshort : code.length < 2147483648) {img : Image}
    (himg : img = Image.ofAssembly s.wordSize code)
    (hsafe : Safe img ((Image.dataWords code).length * s.wordSize) (initial img)) :
    (∀ n w, p.main n p.world ≠ .error .stuck w) ∧
    ∀ {e w}, p.EndsWith e w → ∃ m, Machine.EndsWith img e m ∧
      m.output = w.output ∧
      (∀ g ∈ p.globals,
        w.globals.lookup g.name = some (m.memory.read (img.address (variableLabel g.name)))) ∧
      (e = .normal → m.depth s.wordSize = 0) := by
  obtain ⟨t, ls, ht, hcode⟩ := Program.compile_eq_ok.1 h
  rw [ht.wordSize] at himg hsafe ⊢
  subst himg
  have hmain := fun n => simulates_main ht hcode hfree hmatch hshort n hsafe
  refine ⟨fun n w hn => ?_, fun {e w} hend => ?_⟩
  · have hstuck := hmain n
    rw [hn] at hstuck
    exact hstuck
  · obtain ⟨n, hn⟩ := hend
    have hrun := hmain n
    rw [hn] at hrun
    cases e with
    | normal =>
      obtain ⟨m, hreach, hhalt, hsp, hshows⟩ := hrun
      refine ⟨m, hreach.runFor_halt (step_halt ?_), hshows.output,
        fun g hg => hshows.lookup_global ht hcode hg, fun _ => ?_⟩
      · rw [(linked_program ht hcode hshort).code_eq, hhalt]
      · rw [State.depth, hsp, Int.sub_self, Int.zero_tdiv]
    | divisionByZero =>
      obtain ⟨m', m, hreach, hfault, hshows⟩ := hrun
      exact ⟨m, hreach.runFor_fault hfault, hshows.output,
        fun g hg => hshows.lookup_global ht hcode hg, by rintro ⟨⟩⟩

end Program

/-! ## A safe run, line by line -/

theorem Safe.next {img : Image} {d : Int} {s s' : State} (hd : d ≤ s.sp)
    (hs : step img s = .ok true s') (h : Safe img d s') : Safe img d s := by
  intro s'' hreach
  rcases Relation.ReflTransGen.cases_head hreach with rfl | ⟨s₁, hs₁, hreach⟩
  · exact hd
  · cases hs.symm.trans hs₁
    exact h s'' hreach

theorem Safe.halt {img : Image} {d : Int} {s s' : State} (hd : d ≤ s.sp)
    (hs : step img s = .ok false s') : Safe img d s := by
  intro s'' hreach
  rcases Relation.ReflTransGen.cases_head hreach with rfl | ⟨s₁, hs₁, -⟩
  · exact hd
  · cases hs.symm.trans hs₁

/-- A method that assigns to a global and writes it, called with 6. -/
def timesSeven : Program where
  globals := [⟨"x", ⟨0⟩, ⟨1, 5⟩⟩]
  body := [.call "f" [.int 6 ⟨2, 3⟩] ⟨2, 1⟩]
  methods := [⟨⟨"f", none, [⟨"n", ⟨0⟩, ⟨3, 12⟩⟩], []⟩,
    [.assign "x" (.binary .mul (.var "n" ⟨4, 8⟩) (.int 7 ⟨4, 12⟩) ⟨4, 10⟩) ⟨4, 3⟩,
      .print .line (.var "x" ⟨5, 11⟩) ⟨5, 3⟩], ⟨3, 1⟩⟩]

/-- Its code, with words of 4 bytes. -/
def timesSevenCode : Assembly :=
  [.push 6, .push 1, .call "$_f", .storei "$s_discard", .halt,
    .label "$_f", .getDp, .push 0, .add, .getFp, .push 8, .add, .load, .push 7, .mul, .store,
    .getDp, .push 0, .add, .load, .outDec, .push 10, .outChar, .push 0, .push 1, .ret,
    .data, .word "$v_x" 0, .word "$s_discard" 0]

theorem safe_timesSeven :
    Safe (Image.ofAssembly 4 timesSevenCode) 8 (initial (Image.ofAssembly 4 timesSevenCode)) := by
  have hplace : (Image.ofAssembly 4 timesSevenCode).places["$_f"]? = some 5 :=
    getElem?_placesOf (by decide) rfl
  have hwords : Image.dataWords timesSevenCode = ["$v_x", "$s_discard"].map fun l => (l, 0) := rfl
  have haddress : (Image.ofAssembly 4 timesSevenCode).addresses["$s_discard"]? = some 4 :=
    getElem?_addressesOf (k := 1) hwords (by decide) rfl
  refine .next (by decide) (step_push rfl) ?_
  refine .next (by decide) (step_push rfl) ?_
  refine .next (by decide) (step_call (by decide) rfl hplace) ?_
  refine .next (by decide) (step_label rfl) ?_
  refine .next (by decide) (step_getDp rfl) ?_
  refine .next (by decide) (step_push rfl) ?_
  refine .next (by decide) (step_combine (by decide) (by decide) rfl rfl rfl) ?_
  refine .next (by decide) (step_getFp rfl) ?_
  refine .next (by decide) (step_push rfl) ?_
  refine .next (by decide) (step_combine (by decide) (by decide) rfl rfl rfl) ?_
  refine .next (by decide) (step_load (by decide) rfl) ?_
  refine .next (by decide) (step_push rfl) ?_
  refine .next (by decide) (step_combine (by decide) (by decide) rfl rfl rfl) ?_
  refine .next (by decide) (step_store (by decide) (by decide) rfl) ?_
  refine .next (by decide) (step_getDp rfl) ?_
  refine .next (by decide) (step_push rfl) ?_
  refine .next (by decide) (step_combine (by decide) (by decide) rfl rfl rfl) ?_
  refine .next (by decide) (step_load (by decide) rfl) ?_
  refine .next (by decide) (step_outDec (by decide) rfl) ?_
  refine .next (by decide) (step_push rfl) ?_
  refine .next (by decide) (step_outChar (by decide) rfl) ?_
  refine .next (by decide) (step_push rfl) ?_
  refine .next (by decide) (step_push rfl) ?_
  refine .next (by decide) (step_ret (by decide) (by decide) rfl rfl ?_) ?_
  · simp [State.depth, initial, Memory.read_write, Image.ofAssembly, stackTop]
  -- The words of the frame decide where the machine is now, so no reduction finds it.
  have hback : ∀ s : State, s.pc = 3 → s.sp = stackTop - 4 →
      Safe (Image.ofAssembly 4 timesSevenCode) 8 s := by
    rintro ⟨memory, heap, sp, fp, pc, output, depths⟩ ⟨⟩ ⟨⟩
    refine .next (of_decide_eq_true rfl) (step_storei (of_decide_eq_true rfl) rfl haddress) ?_
    exact .halt (of_decide_eq_true rfl) (step_halt rfl)
  apply hback
  · simp [initial, Memory.read_write, Image.ofAssembly, stackTop, unsigned]
  · simp [initial, Memory.read_write, Image.ofAssembly, stackTop]

/-- The machine halts with 42 written and in the word of the global. -/
theorem compile_preserves_timesSeven :
    (timesSeven.compile {}).result = .ok timesSevenCode ∧
      timesSeven.EndsWith .normal ⟨[("x", 42)], "42\n"⟩ ∧
      ∃ m, Machine.EndsWith (Image.ofAssembly 4 timesSevenCode) .normal m ∧ m.output = "42\n" ∧
        m.memory.read ((Image.ofAssembly 4 timesSevenCode).address "$v_x") = 42 ∧ m.depth 4 = 0 := by
  have hcompile : (timesSeven.compile {}).result = .ok timesSevenCode := rfl
  have hend : timesSeven.EndsWith .normal ⟨[("x", 42)], "42\n"⟩ := ⟨1, by rfl⟩
  obtain ⟨-, hmachine⟩ := compile_preserves hcompile rfl (by decide) (by decide) rfl safe_timesSeven
  obtain ⟨m, hm, houtput, hglobals, hdepth⟩ := hmachine hend
  refine ⟨hcompile, hend, m, hm, houtput, ?_, hdepth rfl⟩
  have hx := hglobals ⟨"x", ⟨0⟩, ⟨1, 5⟩⟩ List.mem_cons_self
  exact (Option.some.inj hx).symm

end Lpl
