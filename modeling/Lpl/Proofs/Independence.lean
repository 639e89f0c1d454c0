import Lpl.Proofs.Acceptance
import Lpl.Proofs.Sections

/-!
# Methods are compiled one by one

The code of a method depends on the other bodies only through the number of the first place label that it
can take. So a change to one body leaves the sections before it as they are, and adds one number to all
place labels in the sections behind it (`compile_independent`).

The two runs are compared by a coupling: their supplies differ by a fixed number, and the code of one is
that of the other with the number added to its place labels.
-/

namespace Lpl

open Assembly

/-! ## Adding to the numbers of place labels -/

/-- A place label with `d` added to its number. All other labels stay as they are. -/
def shiftLabel (d : Int) (l : String) : String :=
  if labelMark l = some '$' then
    String.ofList (l.toList.reverse.dropWhile Char.isDigit).reverse ++
      toString ((Nat.ofDigitChars 10 (l.toList.reverse.takeWhile Char.isDigit).reverse 0 : Int) + d)
  else l

/-- The line with `d` added to the number of the place label in it. -/
def Instruction.shift (d : Int) : Instruction → Instruction
  | loadi l => loadi (shiftLabel d l)
  | storei l => storei (shiftLabel d l)
  | jump l => jump (shiftLabel d l)
  | jumpIfZero l => jumpIfZero (shiftLabel d l)
  | call l => call (shiftLabel d l)
  | label l => label (shiftLabel d l)
  | word l v => word (shiftLabel d l) v
  | i => i

theorem shiftLabel_of_mark {l : String} (h : labelMark l ≠ some '$') (d : Int) : shiftLabel d l = l :=
  if_neg h

@[simp] theorem shiftLabel_methodLabel (d : Int) (f : String) :
    shiftLabel d (methodLabel f) = methodLabel f :=
  shiftLabel_of_mark (by simp) d

@[simp] theorem shiftLabel_scratchLabel (d : Int) (x : String) :
    shiftLabel d (scratchLabel x) = scratchLabel x :=
  shiftLabel_of_mark (by simp) d

theorem shiftLabel_placeLabel {d : Int} {n n' : Nat} (h : (n' : Int) = n + d) (stem : String) :
    shiftLabel d (placeLabel stem n) = placeLabel stem n' := by
  have hdigits := digits_placeLabel stem n
  have hlabel : (placeLabel stem n).toList =
      ("$$_" ++ stem ++ "_").toList ++ Nat.toDigits 10 n := by
    simp [placeLabel]
  have hstem : (placeLabel stem n).toList.reverse.dropWhile Char.isDigit =
      ("$$_" ++ stem ++ "_").toList.reverse := by
    have hsplit := List.takeWhile_append_dropWhile (p := Char.isDigit)
      (l := (placeLabel stem n).toList.reverse)
    rw [hdigits, hlabel, List.reverse_append] at hsplit
    rw [hlabel, List.reverse_append]
    exact List.append_cancel_left hsplit
  rw [shiftLabel, if_pos (labelMark_placeLabel stem n), hdigits, hstem, List.reverse_reverse,
    List.reverse_reverse, Nat.ofDigitChars_ten_toDigits, ← h, String.ofList_toList]
  rfl

theorem shift_of_isBare {i : Instruction} (h : i.isBare) (d : Int) : i.shift d = i := by
  revert h
  cases i <;> simp [Instruction.isBare, Instruction.shift]

/-- Two runs of which the second takes place labels with numbers that are greater by `d`. -/
def shiftCoupling (d : Int) : Coupling where
  supply ls ls' := (ls'.next : Int) = ls.next + d
  label l l' := l' = shiftLabel d l
  code F F' := F' = F.map (Instruction.shift d)
  nil := rfl
  append hF hG := by rw [hF, hG, List.map_append]
  line {i i'} h := by
    cases h with
    | bare hi => rw [List.map_singleton, shift_of_isBare hi]
    | call => rw [List.map_singleton, Instruction.shift, shiftLabel_methodLabel]
    | place hl | jump hl | jumpIfZero hl | loadi hl | storei hl => rw [hl]; rfl
  fresh stem h := by
    refine ⟨(shiftLabel_placeLabel h stem).symm, ?_⟩
    simp only [Labels.next_skip, Int.natCast_add]
    omega
  scratch name h := ⟨(shiftLabel_scratchLabel d name).symm, h⟩

theorem shiftCoupling_scopes (d : Int) (σ : Scope) : (shiftCoupling d).Scopes σ σ where
  methods := rfl
  active := rfl
  none h := h
  some {x v} h := by
    refine ⟨v, h, ?_⟩
    obtain ⟨place, type⟩ := v
    cases place <;> rfl

theorem shiftCoupling_entered (d : Int) (σ : Scope) : (shiftCoupling d).Entered σ σ where
  main := shiftCoupling_scopes d σ
  label f := by
    show [_] = List.map _ [_]
    rw [List.map_singleton, Instruction.shift, shiftLabel_methodLabel]
  inside _ := shiftCoupling_scopes d _

/-! ## The labels that a body takes -/

/-- The number of place labels that a body takes. -/
def labelsTaken (σ : Scope) (body : List Stmt) : Nat := ((bodyCode σ body).run {}).labels.next

variable {σ : Scope} {ls ls' : Labels} {F : Assembly}

/-- It is the same wherever the body stands. -/
theorem next_run_bodyCode (σ : Scope) (body : List Stmt) (ls : Labels) :
    ((bodyCode σ body).run ls).labels.next = ls.next + labelsTaken σ body := by
  have hrun := coupled_bodyCode (shiftCoupling_scopes ls.next σ) body {} ls (by
    show (ls.next : Int) = (0 : Nat) + ls.next
    omega)
  have hnext : ((((bodyCode σ body).run ls).labels.next : Nat) : Int) =
    labelsTaken σ body + ls.next := hrun.supply
  omega

theorem Emits.next_method {m : Method} {sig : Signature} (h : Emits (m.code σ) ls () F ls')
    (hsig : σ.table.method? m.name = some sig) :
    ls'.next = ls.next + labelsTaken (σ.inside sig) m.body := by
  obtain ⟨s, B, hs, -, hB, -⟩ := emits_method.1 h
  cases hsig.symm.trans hs
  rw [← emits_bodyCode] at hB
  rw [← next_run_bodyCode, hB.2.2]

/-- The methods behind `m` start with the labels that `m` leaves. -/
theorem exists_behind {before ms : List Method} {m : Method} {sig : Signature} {G : Assembly}
    (h : Emits (methodsCode σ (before ++ m :: ms)) ls () G ls')
    (hsig : σ.table.method? m.name = some sig) :
    ∃ G₁ ls₁ ls₂ G₂, Emits (methodsCode σ before) ls () G₁ ls₁ ∧
      ls₂.next = ls₁.next + labelsTaken (σ.inside sig) m.body ∧
      Emits (methodsCode σ ms) ls₂ () G₂ ls' := by
  obtain ⟨G₁, ls₁, G₂, h₁, h₂, -⟩ := emits_methodsCode_append.1 h
  obtain ⟨_, F, ls₂, G₃, hF, h₃, -⟩ := emits_bind.1 h₂
  exact ⟨G₁, ls₁, ls₂, G₃, h₁, hF.next_method hsig, h₃⟩

/-! ## Two programs that differ in one body -/

theorem Emits.unique {x : Emitter Unit} {F F' : Assembly} {ls₁ ls₂ : Labels}
    (h : Emits x ls () F ls₁) (h' : Emits x ls () F' ls₂) : F' = F ∧ ls₂ = ls₁ :=
  ⟨h'.2.1.symm.trans h.2.1, h'.2.2.symm.trans h.2.2⟩

section

variable {s : Settings} {p : Program} {t : Table} {code code' : Assembly} {before after : List Method}
  {m : Method} {body : List Stmt}

/-- The table of a program does not depend on the bodies of its methods. -/
theorem WellDeclared.with_body {t' : Table} (hp : p.methods = before ++ m :: after)
    (h : WellDeclared s p t)
    (h' : WellDeclared s { p with methods := before ++ { m with body := body } :: after } t') :
    t' = t := by
  have hsize : t'.wordSize = t.wordSize := by
    have := h'.wordSize.symm.trans h.wordSize
    omega
  have hmethods : t'.methods = t.methods := by
    rw [h'.methods, h.methods, hp, List.map_append, List.map_append]
    rfl
  obtain ⟨w, globals, methods⟩ := t
  obtain ⟨w', globals', methods'⟩ := t'
  rw [Table.mk.injEq]
  exact ⟨hsize, h'.globals.trans h.globals.symm, hmethods⟩

section Sections

variable (hp : p.methods = before ++ m :: after) (ht : WellDeclared s p t)
  (ht' : WellDeclared s { p with methods := before ++ { m with body := body } :: after } t)
  (hcode : Emits (p.code ⟨t, none⟩) {} () code ls)
  (hcode' : Emits (Program.code ⟨t, none⟩
    { p with methods := before ++ { m with body := body } :: after }) {} () code' ls')

include hp ht ht' hcode hcode'

theorem methodSection_before {b : Method} (hb : b ∈ before) :
    code'.methodSection b.name = code.methodSection b.name := by
  obtain ⟨b₁, b₂, rfl⟩ := List.append_of_mem hb
  have hsplit : ∀ ms, b₁ ++ b :: b₂ ++ ms = b₁ ++ b :: (b₂ ++ ms) := fun ms => List.append_assoc ..
  obtain ⟨B, ls₁, G, ls₂, ls₃, hB, hG, hF⟩ := exists_section ht hcode (hp.trans (hsplit _))
  obtain ⟨B', ls₁', G', ls₂', ls₃', hB', hG', hF'⟩ := exists_section ht' hcode' (hsplit _)
  obtain ⟨-, rfl⟩ := hB.unique hB'
  obtain ⟨-, rfl⟩ := hG.unique hG'
  exact (hF.unique hF').1

theorem methodSection_behind {a : Method} (ha : a ∈ after) {n n' : Nat}
    (hn : labelsTaken ⟨t, some m.toSignature⟩ m.body = n)
    (hn' : labelsTaken ⟨t, some m.toSignature⟩ body = n') :
    code'.methodSection a.name = (code.methodSection a.name).map (Instruction.shift (n' - n)) := by
  obtain ⟨a₁, a₂, rfl⟩ := List.append_of_mem ha
  have hsplit : ∀ m : Method, before ++ m :: (a₁ ++ a :: a₂) = (before ++ m :: a₁) ++ a :: a₂ :=
    fun m => (List.append_assoc before (m :: a₁) (a :: a₂)).symm
  obtain ⟨B, ls₁, G, ls₂, ls₃, hB, hG, hF⟩ := exists_section ht hcode (hp.trans (hsplit m))
  obtain ⟨B', ls₁', G', ls₂', ls₃', hB', hG', hF'⟩ := exists_section ht' hcode' (hsplit _)
  obtain ⟨-, rfl⟩ := hB.unique hB'
  have hsig : t.method? m.name = some m.toSignature :=
    method?_of_mem ht (by rw [hp]; exact List.mem_append_right _ List.mem_cons_self)
  obtain ⟨G₁, l, l₁, G₂, hbefore, hnext, hG₂⟩ := exists_behind hG hsig
  obtain ⟨G₁', l', l₁', G₂', hbefore', hnext', hG₂'⟩ :=
    exists_behind (m := { m with body := body }) hG' hsig
  -- The runs part at `m`: from equal supplies it takes `n` labels in one and `n'` in the other.
  obtain ⟨-, hl⟩ := hbefore.unique hbefore'
  have hshift : (l₁'.next : Int) = l₁.next + (n' - n) := by
    have hold : l₁.next = l.next + n := hn ▸ hnext
    have hnew : l₁'.next = l'.next + n' := hn' ▸ hnext'
    rw [hl] at hnew
    omega
  have hentered := shiftCoupling_entered (n' - n) ⟨t, none⟩
  have hsupply := ((coupled_methodsCode hentered a₁).emits hshift hG₂ hG₂').2
  exact ((a.coupled hentered).emits hsupply hF hF').1

end Sections

/-- A change to the body of one method leaves the main section and the sections of the methods before it
as they are. In the sections of the methods behind it, it adds one number to all place labels: how many
labels more the new body takes. -/
theorem compile_independent (hp : p.methods = before ++ m :: after)
    (h : (p.compile s).result = .ok code)
    (h' : (Program.compile s { p with methods := before ++ { m with body := body } :: after }).result =
      .ok code') :
    ∃ t, (Table.ofProgram s p).result = .ok t ∧
      code = code.mainSection ++ (p.methods.flatMap fun m => code.methodSection m.name) ++
        code.dataSection ∧
      code' = code'.mainSection ++ (p.methods.flatMap fun m => code'.methodSection m.name) ++
        code'.dataSection ∧
      code'.mainSection = code.mainSection ∧
      (∀ b ∈ before, code'.methodSection b.name = code.methodSection b.name) ∧
      ∀ a ∈ after, code'.methodSection a.name = (code.methodSection a.name).map
        (Instruction.shift (labelsTaken ⟨t, some m.toSignature⟩ body -
          labelsTaken ⟨t, some m.toSignature⟩ m.body)) := by
  obtain ⟨t, ls, ht, hcode⟩ := Program.compile_eq_ok.1 h
  obtain ⟨t', ls', ht', hcode'⟩ := Program.compile_eq_ok.1 h'
  obtain rfl := ht.with_body hp ht'
  refine ⟨t', Table.ofProgram_eq_ok.2 ht, code_eq_sections ht hcode, ?_, ?_,
    fun b hb => methodSection_before hp ht ht' hcode hcode' hb,
    fun a ha => methodSection_behind hp ht ht' hcode hcode' ha rfl rfl⟩
  · have hsections := code_eq_sections ht' hcode'
    rw [hp]
    simpa only [List.flatMap_append, List.flatMap_cons] using hsections
  · obtain ⟨B, _, _, hB, -, hmain, -⟩ := emits_program_sections hcode
    obtain ⟨B', _, _, hB', -, hmain', -⟩ := emits_program_sections hcode'
    rw [hmain, hmain', (hB.unique hB').1]

end

/-- A procedure without parameters. -/
def procedure (name : String) (body : List Stmt) : Method := ⟨⟨name, none, [], []⟩, body, ⟨3, 1⟩⟩

/-- A loop until the global `x` is 0. -/
def untilZero (s : Stmt) : Stmt := .whileDo (.var "x" ⟨3, 20⟩) s ⟨3, 10⟩

/-- A program with loops before and behind a procedure with the given body. -/
def betweenLoops (body : List Stmt) : Program where
  globals := [⟨"x", ⟨0⟩, ⟨1, 1⟩⟩]
  body := [untilZero (.call "h" [] ⟨2, 10⟩)]
  methods := [procedure "f" [untilZero (.newline ⟨3, 30⟩)], procedure "g" body,
    procedure "h" [untilZero (.call "f" [] ⟨3, 30⟩)]]

/-- A switch with one case, which takes four labels. -/
def oneCase : List Stmt :=
  [.switch (.var "x" ⟨4, 20⟩) [.mk 1 (.newline ⟨4, 40⟩) ⟨4, 30⟩] (.newline ⟨4, 50⟩) ⟨4, 10⟩]

/-- The code of the loop behind it, with labels from 4 on. -/
def loopBehind : Assembly :=
  [.label "$_h", .label "$$_while_start_4", .getDp, .push 0, .add, .load, .jumpIfZero "$$_while_end_5",
    .push 0, .call "$_f", .storei "$s_discard", .jump "$$_while_start_4", .label "$$_while_end_5", .push 0,
    .push 0, .ret]

/-- With a switch in the place of a line break, four is added to the labels of the loop behind it. -/
theorem compile_independent_betweenLoops :
    ∃ code code' : Assembly, ((betweenLoops [.newline ⟨4, 10⟩]).compile {}).result = .ok code ∧
      ((betweenLoops oneCase).compile {}).result = .ok code' ∧
      code'.mainSection = code.mainSection ∧
      code'.methodSection "f" = code.methodSection "f" ∧
      code.methodSection "h" = loopBehind ∧
      code'.methodSection "h" = loopBehind.map (Instruction.shift 4) ∧
      .label "$$_while_start_8" ∈ code'.methodSection "h" := by
  have hcode : ∃ code, ((betweenLoops [.newline ⟨4, 10⟩]).compile {}).result = .ok code ∧
      code.methodSection "h" = loopBehind := ⟨_, rfl, by decide +kernel⟩
  have hcode' : ∃ code', ((betweenLoops oneCase).compile {}).result = .ok code' ∧
      .label "$$_while_start_8" ∈ code'.methodSection "h" := ⟨_, rfl, by decide +kernel⟩
  obtain ⟨code, h, hsection⟩ := hcode
  obtain ⟨code', h', hsection'⟩ := hcode'
  have hmethods : (betweenLoops [.newline ⟨4, 10⟩]).methods =
    [procedure "f" [untilZero (.newline ⟨3, 30⟩)]] ++ procedure "g" [.newline ⟨4, 10⟩] ::
      [procedure "h" [untilZero (.call "f" [] ⟨3, 30⟩)]] := rfl
  obtain ⟨t, ht, -, -, hmain, hbefore, hbehind⟩ := compile_independent hmethods h h'
  cases ht
  refine ⟨code, code', h, h', hmain, hbefore _ List.mem_cons_self, hsection, ?_, hsection'⟩
  rw [← hsection]
  exact hbehind _ List.mem_cons_self

end Lpl
