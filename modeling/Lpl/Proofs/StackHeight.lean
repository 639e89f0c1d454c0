import Lpl.Proofs.Labels
import Lpl.Session

/-!
# The height of the stack along emitted code

**Theorem (`emit_stack_disciplined`).** The code of an expression, of a statement or of a method
gives every one of its lines a height of the stack, counted from where it starts. Every line finds the
words that it pops; whichever way control goes, it meets the height of the line where it arrives. An
expression leaves one word, a statement none, and a `ret` finds two words above the locals.

A height is followed along the lines, jumps or not: labels stand where no temporary words are, at the
height `base` of the statements around them, and so every jump goes from there to there. `Runs` is
this walk. It goes over a call in one piece, as only the call itself says how many arguments it
takes. A walk splits where the code does, so that each construct adds its own lines only.
-/

namespace Lpl

/-! ## Words popped and pushed -/

namespace Instruction

/-- The number of words that a line pops. A call pops its `argc` arguments and their number; a `ret`
pops the value and the size of the frame. -/
def pops (argc : Nat) : Instruction → Nat
  | push _ | getFp | getDp | loadi _ | jump _ | halt | label _ | data | word .. => 0
  | load | storei _ | testZ | testN | jumpIfZero _ | arrayLength | outDec | outChar => 1
  | store | add | sub | mul | div | ret | arrayIndex => 2
  | newArray n => n
  | call _ => argc + 1

/-- The number of words that a line pushes. -/
def pushes : Instruction → Nat
  | push _ | getFp | getDp | load | loadi _ | add | sub | mul | div | testZ | testN | call _
  | arrayIndex | arrayLength | newArray _ => 1
  | store | storei _ | jump _ | jumpIfZero _ | ret | halt | outDec | outChar | label _ | data
  | word .. => 0

/-- A line that neither defines a label nor leaves the line of control. -/
def isPlain : Instruction → Bool
  | label _ | jump _ | jumpIfZero _ | call _ | ret | halt | data | word .. => false
  | _ => true

end Instruction

/-- The line `i` can stand between the heights `h` and `h'`, in code whose statements are at height
`base`. -/
structure Fits (base : Nat) (i : Instruction) (argc h h' : Nat) : Prop where
  pops_le : i.pops argc ≤ h
  effect : h' = h - i.pops argc + i.pushes
  place : ∀ l, i = .label l → labelMark l = some '$' → h = base
  jump : ∀ l, i.target? = some l → h' = base
  ret : i = .ret → h = base + 2

theorem Instruction.called?_of_isPlain {i : Instruction} (hi : i.isPlain) : i.called? = none := by
  cases i <;> simp_all [isPlain, called?]

theorem Fits.plain {i : Instruction} {base h : Nat} (hi : i.isPlain) (hle : i.pops 0 ≤ h) :
    Fits base i 0 h (h - i.pops 0 + i.pushes) where
  pops_le := hle
  effect := rfl
  place := by
    rintro l rfl
    cases hi
  jump l hl := by
    cases i <;> simp_all [Instruction.isPlain, Instruction.target?]
  ret := by
    rintro rfl
    cases hi

/-! ## Walks -/

/-- A walk along code, from the height it starts at to the one it ends at, over the given calls. -/
inductive Runs (base : Nat) : Nat → Assembly → List CallSite → Nat → Prop where
  | nil {h : Nat} : Runs base h [] [] h
  | cons {i : Instruction} {h h₁ h' : Nat} {F : Assembly} {cs : List CallSite} :
    i.called? = none → Fits base i 0 h h₁ → Runs base h₁ F cs h' → Runs base h (i :: F) cs h'
  | call {c : CallSite} {h h' : Nat} {F : Assembly} {cs : List CallSite} :
    Runs base (h + 1) F cs h' →
    Runs base (h + c.argc) (callCode c.method c.argc ++ F) (c :: cs) h'

namespace Runs

variable {base h h₁ h' : Nat} {F G : Assembly} {cs ds : List CallSite}

theorem append (hF : Runs base h F cs h₁) (hG : Runs base h₁ G ds h') :
    Runs base h (F ++ G) (cs ++ ds) h' := by
  induction hF with
  | nil => exact hG
  | cons hi hfit _ ih => exact .cons hi hfit (ih hG)
  | call _ ih =>
    rw [List.append_assoc]
    exact .call (ih hG)

theorem single {i : Instruction} (hi : i.called? = none) (hfit : Fits base i 0 h h') :
    Runs base h [i] [] h' :=
  .cons hi hfit .nil

/-- Code without calls behind a walk. -/
theorem before (hF : Runs base h F cs h₁) (hG : Runs base h₁ G [] h') :
    Runs base h (F ++ G) cs h' := by
  simpa using hF.append hG

theorem label (l : String) : Runs base base [.label l] [] base :=
  single rfl ⟨Nat.zero_le _, rfl, fun _ _ _ => rfl, nofun, nofun⟩

theorem jump (l : String) : Runs base base [.jump l] [] base :=
  single rfl ⟨Nat.zero_le _, rfl, nofun, fun _ _ => rfl, nofun⟩

theorem jumpIfZero (l : String) : Runs base (base + 1) [.jumpIfZero l] [] base :=
  single rfl ⟨Nat.le_add_left _ _, rfl, nofun, fun _ _ => rfl, nofun⟩

theorem jump_label (l l' : String) : Runs base base [.jump l, .label l'] [] base :=
  (jump l).append (label l')

theorem push_ret (v : Int32) : Runs base (base + 1) [.push v, .ret] [] base :=
  .cons rfl (.plain (i := .push v) rfl (Nat.zero_le _))
    (single rfl ⟨Nat.le_add_left _ _, rfl, nofun, nofun, fun _ => rfl⟩)

end Runs

/-- Code that takes the stack from `a` words to `b`, whatever is below these. -/
def Moves (F : Assembly) (cs : List CallSite) (a b : Nat) : Prop :=
  ∀ base h, Runs base (h + a) F cs (h + b)

/-- The height behind plain lines that start at height `h`, if they find their words. -/
def Assembly.height? : Nat → Assembly → Option Nat
  | h, [] => some h
  | h, i :: F =>
    if i.isPlain ∧ i.pops 0 ≤ h then Assembly.height? (h - i.pops 0 + i.pushes) F else none

namespace Moves

variable {F G : Assembly} {cs ds : List CallSite} {a b c : Nat}

theorem append (hF : Moves F cs a b) (hG : Moves G ds b c) : Moves (F ++ G) (cs ++ ds) a c :=
  fun base h => (hF base h).append (hG base h)

/-- Words that lie below are left alone. -/
theorem above (hF : Moves F cs a b) (n : Nat) : Moves F cs (n + a) (n + b) := fun base h => by
  rw [← Nat.add_assoc, ← Nat.add_assoc]
  exact hF base (h + n)

theorem plain (hF : Assembly.height? a F = some b) : Moves F [] a b := by
  intro base h
  induction F generalizing a with
  | nil =>
    cases hF
    exact .nil
  | cons i F ih =>
    rw [Assembly.height?] at hF
    split at hF
    case isFalse => cases hF
    case isTrue hi =>
      have heffect : h + a - i.pops 0 + i.pushes = h + (a - i.pops 0 + i.pushes) := by omega
      refine .cons (Instruction.called?_of_isPlain hi.1) (.plain hi.1 (by omega)) ?_
      rw [heffect]
      exact ih hF

theorem before (hF : Moves F cs a b) (hG : Assembly.height? b G = some c) :
    Moves (F ++ G) cs a c := by
  simpa using hF.append (plain hG)

theorem after (hG : Assembly.height? a G = some b) (hF : Moves F cs b c) :
    Moves (G ++ F) cs a c :=
  (plain hG).append hF

theorem pushed {base : Nat} (hF : Moves F cs 0 1) : Runs base base F cs (base + 1) := hF base base

theorem level {base : Nat} (hF : Moves F cs 0 0) : Runs base base F cs base := hF base base

theorem call (f : String) (n : Nat) : Moves (callCode f n) [⟨f, n⟩] n 1 := fun base h => by
  have hrest : Runs base (h + 1) [] [] (h + 1) := .nil
  simpa using Runs.call (c := ⟨f, n⟩) hrest

end Moves

/-! ## The walk along emitted code -/

theorem height?_address (w : Nat) (p : Place) : Assembly.height? 0 (p.address w) = some 1 := by
  cases p <;> rfl

theorem height?_afterLeft (op : BinaryOp) : Assembly.height? 1 op.afterLeft = some 1 := by
  cases op <;> rfl

theorem height?_afterRight (op : BinaryOp) : Assembly.height? 2 op.afterRight = some 1 := by
  cases op <;> rfl

theorem height?_print (k : PrintKind) : Assembly.height? 1 k.code = some 0 := by
  cases k <;> rfl

theorem Expr.moves (σ : Scope) :
    Expr.Rules σ (fun e F => Moves F e.calls 0 1)
      (fun es F => Moves F (Expr.callsAll es) 0 es.length)
      (fun es F => Moves F (Expr.callsReversed es) 0 es.length)
      (fun es F => Moves F (Expr.callsAll es) 1 1) where
  int _ _ := .plain rfl
  null _ := .plain rfl
  var _ := (Moves.plain (height?_address _ _)).before rfl
  not h := h.before rfl
  neg h := ((h.above 1).after rfl).before rfl
  binary {op a b l F G} ha hb :=
    ((ha.before (height?_afterLeft op)).append (hb.above 1)).before (height?_afterRight op)
  index _ h := (h.after (height?_address _ _)).before rfl
  length h := h.before rfl
  new {es n l F} h := h.before (by simp [Assembly.height?, Instruction.isPlain, Instruction.pops,
    Instruction.pushes])
  call _ h := h.append (.call _ _)
  all_nil := .plain rfl
  all_cons {e es F G} he hes := by
    have hes := hes.above 1
    rw [Nat.add_comm 1 es.length] at hes
    exact he.append hes
  reversed_nil := .plain rfl
  reversed_cons he hes := hes.append (he.above _)
  element_nil := .plain rfl
  element_cons he hes := (((he.above 1).after rfl).before rfl).append hes

theorem Moves.replicate_push (n : Nat) (v : Int32) : Moves (List.replicate n (.push v)) [] 0 n := by
  induction n with
  | zero => exact .plain rfl
  | succ n ih =>
    rw [List.replicate_succ']
    exact ih.before (by simp [Assembly.height?, Instruction.isPlain, Instruction.pops,
      Instruction.pushes])

theorem Runs.dispatch {base : Nat} (word : String) (cs : List SwitchCase) (labels : List String) :
    Runs base base (dispatch word cs labels) [] base := by
  unfold Lpl.dispatch
  induction cs.zip labels with
  | nil => exact .nil
  | cons p ps ih =>
    have htest : Moves [.loadi word, .push p.1.value, .sub] [] 0 1 := .plain rfl
    exact ((htest base base).before (.jumpIfZero p.2)).append ih

/-- Statements leave the stack as they found it. -/
theorem Stmt.runs (σ : Scope) (base : Nat) :
    Stmt.Rules σ (fun s _ F _ => Runs base base F s.calls base)
      (fun ss _ F _ => Runs base base F (Stmt.callsAll ss) base)
      (fun _ cs _ _ F _ => Runs base base F (SwitchCase.callsAll cs) base) where
  assign _ he := by
    have me := ((Expr.moves σ).code _ he).1
    exact Moves.level (((me.above 1).after (height?_address _ _)).before rfl)
  assignAt _ hes he := by
    have mes := ((Expr.moves σ).element _ hes).1
    have me := ((Expr.moves σ).code _ he).1
    exact Moves.level (((mes.after (height?_address _ _)).append (me.above 1)).before rfl)
  ifThen hc hs := by
    have mc := ((Expr.moves σ).code _ hc).1
    exact ((mc.pushed.before (.jumpIfZero _)).append hs).before (.label _)
  ifElse hc hs ht := by
    have mc := ((Expr.moves σ).code _ hc).1
    exact ((((mc.pushed.before (.jumpIfZero _)).append hs).before (.jump_label _ _)).append
      ht).before (.label _)
  whileDo hc hs := by
    have mc := ((Expr.moves σ).code _ hc).1
    exact ((((Runs.label _).append mc.pushed).before (.jumpIfZero _)).append hs).before
      (.jump_label _ _)
  switch {e cs d l ls ls₁ ls' G E D} _ hG he hd := by
    have me := ((Expr.moves σ).code _ he).1
    have hsubject : Moves (E ++ [Instruction.storei (scratchLabel "switch")]) e.calls 0 0 :=
      me.before rfl
    have hjump : Runs base base [.jump (placeLabel "switch_dispatch" ls.next)] [] base := .jump _
    have harms := (hjump.append hG).before (.label (placeLabel "switch_dispatch" ls.next))
    have htest := (harms.append hsubject.level).before
      (.dispatch (scratchLabel "switch") cs (caseLabelsFrom (ls.next + 3) cs))
    have hdefault := ((htest.before (.label (placeLabel "switch_default" (ls.next + 2)))).append
      hd).before (.label (placeLabel "switch_end" (ls.next + 1)))
    simpa [switchCode, Stmt.calls] using hdefault
  block h := h
  print he := Moves.level (((Expr.moves σ).code _ he).1.before (height?_print _))
  newline := Moves.level (.plain rfl)
  ret_some _ he := ((Expr.moves σ).code _ he).1.pushed.before (.push_ret _)
  ret_none _ := (Moves.pushed (.plain rfl)).append (.push_ret _)
  call _ hes := by
    have mes := ((Expr.moves σ).reversed _ hes).1
    exact Moves.level ((mes.append (.call _ _)).before rfl)
  all_nil := .nil
  all_cons hs hss := hs.append hss
  cases_nil := .nil
  cases_cons hs hcs := (((Runs.label _).append hs).before (.jump _)).append hcs

/-! ## Heights line by line -/

/-- The number of arguments of the call at line `k`, where `calls` are the calls in order. -/
def Assembly.argcAt (F : Assembly) (calls : List CallSite) (k : Nat) : Nat :=
  ((calls[(Assembly.called (F.take k)).length]?).map CallSite.argc).getD 0

theorem argcAt_cons {i : Instruction} (hi : i.called? = none) (F : Assembly) (cs : List CallSite)
    (k : Nat) : Assembly.argcAt (i :: F) cs (k + 1) = F.argcAt cs k := by
  simp [Assembly.argcAt, Assembly.called, hi]

theorem argcAt_call (c : CallSite) (F : Assembly) (cs : List CallSite) (k : Nat) :
    Assembly.argcAt (callCode c.method c.argc ++ F) (c :: cs) (k + 2) = F.argcAt cs k := by
  simp [Assembly.argcAt, Assembly.called, callCode, List.filterMap_cons, Instruction.called?]

theorem Instruction.pops_eq {i : Instruction} (hi : i.called? = none) (n : Nat) :
    i.pops n = i.pops 0 := by
  cases i <;> simp_all [called?, pops]

theorem Fits.of_called {base h h' : Nat} {i : Instruction} (hi : i.called? = none)
    (hfit : Fits base i 0 h h') (n : Nat) : Fits base i n h h' where
  pops_le := Instruction.pops_eq hi n ▸ hfit.pops_le
  effect := Instruction.pops_eq hi n ▸ hfit.effect
  place := hfit.place
  jump := hfit.jump
  ret := hfit.ret

/-- The heights `h` fit every line of `F`, and before every call stands the number of its
arguments. -/
structure Heights (base : Nat) (F : Assembly) (calls : List CallSite) (h : Nat → Nat) : Prop where
  fits : ∀ {k i}, F[k]? = some i → Fits base i (F.argcAt calls k) (h k) (h (k + 1))
  argc : ∀ {k l}, F[k]? = some (Instruction.call l) →
    ∃ j, k = j + 1 ∧ F[j]? = some (Instruction.push (.ofNat (F.argcAt calls k)))

namespace Heights

variable {base : Nat} {F : Assembly} {cs : List CallSite} {h : Nat → Nat}

theorem cons {i : Instruction} {a : Nat} (hi : i.called? = none) (hfit : Fits base i 0 a (h 0))
    (hF : Heights base F cs h) : Heights base (i :: F) cs (fun | 0 => a | k + 1 => h k) where
  fits {k i'} hk := by
    cases k with
    | zero =>
      cases hk
      exact hfit.of_called hi _
    | succ k =>
      rw [argcAt_cons hi]
      exact hF.fits hk
  argc {k l} hk := by
    cases k with
    | zero =>
      cases hk
      cases hi
    | succ k =>
      obtain ⟨j, rfl, hj⟩ := hF.argc hk
      exact ⟨j + 1, rfl, by rw [argcAt_cons hi]; exact hj⟩

theorem call {c : CallSite} {a : Nat} (ha : h 0 = a + 1) (hF : Heights base F cs h) :
    Heights base (callCode c.method c.argc ++ F) (c :: cs)
      (fun | 0 => a + c.argc | 1 => a + c.argc + 1 | k + 2 => h k) where
  fits {k i} hk := by
    match k with
    | 0 =>
      cases hk
      exact Fits.of_called rfl (.plain (i := .push _) rfl (Nat.zero_le _)) _
    | 1 =>
      cases hk
      refine ⟨?_, ?_, nofun, nofun, nofun⟩
      · exact Nat.succ_le_succ (Nat.le_add_left _ _)
      · show h 0 = a + c.argc + 1 - (c.argc + 1) + 1
        omega
    | k + 2 =>
      rw [argcAt_call]
      exact hF.fits hk
  argc {k l} hk := by
    match k with
    | 0 => cases hk
    | 1 => exact ⟨0, rfl, rfl⟩
    | k + 2 =>
      obtain ⟨j, rfl, hj⟩ := hF.argc hk
      exact ⟨j + 2, rfl, by rw [argcAt_call]; exact hj⟩

end Heights

theorem Runs.heights {base a b : Nat} {F : Assembly} {cs : List CallSite}
    (hF : Runs base a F cs b) : ∃ h, h 0 = a ∧ h F.length = b ∧ Heights base F cs h := by
  induction hF with
  | @nil a => exact ⟨fun _ => a, rfl, rfl, nofun, nofun⟩
  | cons hi hfit _ ih =>
    obtain ⟨h, rfl, hend, hF⟩ := ih
    exact ⟨_, rfl, hend, hF.cons hi hfit⟩
  | call _ ih =>
    obtain ⟨h, hstart, hend, hF⟩ := ih
    exact ⟨_, rfl, hend, hF.call hstart⟩

/-! ## Stack discipline -/

/-- The heights `h` of the stack at the lines of `F`, code with the given calls that was emitted
between the labels `ls` and `ls'`. -/
structure Disciplined (F : Assembly) (calls : List CallSite) (ls ls' : Labels) (h : Nat → Nat) :
    Prop where
  entry : h 0 = 0
  /-- A line finds the words that it pops. -/
  enough : ∀ {k i}, F[k]? = some i → i.pops (F.argcAt calls k) ≤ h k
  effect : ∀ {k i}, F[k]? = some i → h (k + 1) = h k - i.pops (F.argcAt calls k) + i.pushes
  called : F.called = calls.map fun c => methodLabel c.method
  /-- Before a call stands the number of its arguments. -/
  argc : ∀ {k l}, F[k]? = some (Instruction.call l) →
    ∃ j, k = j + 1 ∧ F[j]? = some (Instruction.push (.ofNat (F.argcAt calls k)))
  /-- A jump goes to a label that the code itself took, and meets the height there. -/
  jump : ∀ {k i l}, F[k]? = some i → i.target? = some l →
    (∃ x n, l = placeLabel x n ∧ ls.next ≤ n ∧ n < ls'.next) ∧
    F.count (.label l) = 1 ∧ ∃ j, F[j]? = some (.label l) ∧ h j = h (k + 1)

/-- Every jump of `F` goes to a label of `F` that was taken between `ls` and `ls'`. -/
def JumpsWithin (F : Assembly) (ls ls' : Labels) : Prop :=
  ∀ l ∈ F.targets, (∃ x n, l = placeLabel x n ∧ ls.next ≤ n ∧ n < ls'.next) ∧
    F.count (.label l) = 1

theorem Fragment.jumpsWithin {ls ls' : Labels} {F : Assembly} (h : Fragment [] [] ls F ls') :
    JumpsWithin F ls ls' := by
  intro l hl
  obtain ⟨L, hL, hnum⟩ := h.places
  have hmem : l ∈ F.places := (h.targets l hl).resolve_right List.not_mem_nil
  have hnodup : F.places.Nodup := hL.nodup_iff.2 hnum.2
  refine ⟨hnum.1 l (hL.mem_iff.1 hmem), ?_⟩
  rw [count_label]
  exact List.count_eq_one_of_mem hnodup hmem

/-- The label of the method is none of those that jumps in its body go to. -/
theorem JumpsWithin.method {ls ls' : Labels} {B : Assembly} (h : JumpsWithin B ls ls')
    (name : String) (m : Signature) : JumpsWithin (methodCode name m B) ls ls' := by
  have hpushes := straight_replicate_push m.locals.length 0
  have htargets : Assembly.targets (methodCode name m B) = B.targets := by
    rw [methodCode, Assembly.targets_append, Assembly.targets_append, Assembly.targets_append,
      hpushes.targets]
    exact List.append_nil _
  have hplaces : Assembly.places (methodCode name m B) = methodLabel name :: B.places := by
    rw [methodCode, Assembly.places_append, Assembly.places_append, Assembly.places_append,
      hpushes.places]
    exact List.append_nil _
  intro l hl
  obtain ⟨⟨x, n, rfl, hn⟩, hcount⟩ := h l (htargets ▸ hl)
  have hne : methodLabel name ≠ placeLabel x n := fun he => by
    simpa using congrArg labelMark he
  refine ⟨⟨x, n, rfl, hn⟩, ?_⟩
  rw [count_label, hplaces, List.count_cons_of_ne hne, ← count_label, hcount]

theorem Runs.disciplined {base b : Nat} {F : Assembly} {cs : List CallSite} {t : Table}
    {ls ls' : Labels} (hF : Runs base 0 F cs b) (hcalls : CallsOf t F cs)
    (hjumps : JumpsWithin F ls ls') :
    ∃ h, Disciplined F cs ls ls' h ∧ h F.length = b ∧ ∀ k, F[k]? = some .ret → h k = base + 2 := by
  obtain ⟨h, hstart, hend, hh⟩ := hF.heights
  refine ⟨h, ⟨hstart, fun hk => (hh.fits hk).pops_le, fun hk => (hh.fits hk).effect,
    hcalls.called, hh.argc, ?_⟩, hend, fun k hk => (hh.fits hk).ret rfl⟩
  intro k i l hk hl
  have hmem : l ∈ F.targets := List.mem_filterMap.2 ⟨i, List.mem_of_getElem? hk, hl⟩
  obtain ⟨⟨x, n, rfl, hn⟩, hcount⟩ := hjumps l hmem
  have hlabel : Instruction.label (placeLabel x n) ∈ F := List.count_pos_iff.1 (by omega)
  obtain ⟨j, hj⟩ := List.getElem?_of_mem hlabel
  -- Both the label and the jump are at the height of statements.
  have hplace : h j = base := (hh.fits hj).place _ rfl (labelMark_placeLabel x n)
  have hjump : h (k + 1) = base := (hh.fits hk).jump _ hl
  exact ⟨⟨x, n, rfl, hn⟩, hcount, j, hj, hplace.trans hjump.symm⟩

section Emitting

variable {σ : Scope} {ls ls' : Labels} {F : Assembly}

theorem Expr.disciplined {e : Expr} (he : Emits (e.code σ) ls () F ls') :
    ∃ h, Disciplined F e.calls ls ls' h ∧ h F.length = 1 := by
  obtain ⟨hmoves, rfl⟩ := (Expr.moves σ).code e he
  have hfrag : Fragment [] [] ls' F ls' := Expr.fragment he
  obtain ⟨h, hd, hend, -⟩ := (hmoves 0 0).disciplined ((Expr.callsRules σ).code e he).1
    hfrag.jumpsWithin
  exact ⟨h, hd, hend⟩

theorem Stmt.disciplined {s : Stmt} (hs : Emits (s.code σ) ls () F ls') :
    ∃ h, Disciplined F s.calls ls ls' h ∧ h F.length = 0 ∧ ∀ k, F[k]? = some .ret → h k = 2 := by
  have hruns := (Stmt.runs σ 0).code s hs
  have hfrag := (Stmt.fragmentRules σ).code s hs
  exact hruns.disciplined ((Stmt.callsRules σ).code s hs) hfrag.jumpsWithin

theorem Method.disciplined {m : Method} (hm : Emits (m.code σ) ls () F ls') :
    ∃ sig h, σ.table.method? m.name = some sig ∧ Disciplined F (Stmt.callsAll m.body) ls ls' h ∧
      h F.length = sig.locals.length ∧ ∀ k, F[k]? = some .ret → h k = sig.locals.length + 2 := by
  obtain ⟨sig, B, hsig, -, hB, rfl⟩ := emits_method.1 hm
  have hruns := (Stmt.runs (σ.inside sig) sig.locals.length).all _ hB
  have hfrag := (Stmt.fragmentRules (σ.inside sig)).all _ hB
  have hlabel : Runs sig.locals.length 0 [.label (methodLabel m.name)] [] 0 :=
    .single rfl ⟨Nat.zero_le _, rfl, fun l hl hmark => by cases hl; simp at hmark, nofun, nofun⟩
  have hlocals := Moves.replicate_push sig.locals.length 0 sig.locals.length 0
  have hreturn : Moves [.push 0] [] 0 1 := .plain rfl
  have hF : Runs sig.locals.length 0 (methodCode m.name sig B) (Stmt.callsAll m.body)
      sig.locals.length := by
    have hbody := ((hlabel.append (by simpa using hlocals)).append hruns).before
      (hreturn.pushed.before (.push_ret (.ofNat sig.frameSize)))
    simpa [methodCode] using hbody
  obtain ⟨h, hd, hend, hret⟩ := hF.disciplined (callsOf_method hm) (hfrag.jumpsWithin.method _ _)
  exact ⟨sig, h, hsig, hd, hend, hret⟩

end Emitting

theorem emits_of_step {s s' : Session} {node : Node} {F : Assembly}
    (h : s.step (.emit node) = (.emitted F none, s')) :
    Emits (node.code s.scope) s.labels () F s'.labels ∧ s'.code = s.code ++ F := by
  rw [Session.step, Session.append, Prod.mk.injEq, Session.Reply.emitted.injEq] at h
  obtain ⟨⟨hcode, hresult⟩, rfl⟩ := h
  have hok : ((node.code s.scope).run s.labels).result = .ok () := by
    cases hr : ((node.code s.scope).run s.labels).result with
    | ok => rfl
    | error e => simp [hr] at hresult
  refine ⟨?_, by rw [← hcode]⟩
  rw [← hcode]
  exact emits_self hok

/-- Emitted code keeps the stack in order, whatever was declared and emitted before it. -/
theorem emit_stack_disciplined (s : Session) :
    (∀ e F s', s.step (.emit (.expr e)) = (.emitted F none, s') →
      s'.code = s.code ++ F ∧
      ∃ h, Disciplined F e.calls s.labels s'.labels h ∧ h F.length = 1) ∧
    (∀ t F s', s.step (.emit (.stmt t)) = (.emitted F none, s') →
      s'.code = s.code ++ F ∧
      ∃ h, Disciplined F t.calls s.labels s'.labels h ∧ h F.length = 0 ∧
        ∀ k, F[k]? = some .ret → h k = 2) ∧
    (∀ m F s', s.step (.emit (.method m)) = (.emitted F none, s') →
      s'.code = s.code ++ F ∧
      ∃ sig h, s.scope.table.method? m.name = some sig ∧
        Disciplined F (Stmt.callsAll m.body) s.labels s'.labels h ∧
        h F.length = sig.locals.length ∧
        ∀ k, F[k]? = some .ret → h k = sig.locals.length + 2) := by
  refine ⟨fun e F s' h => ?_, fun t F s' h => ?_, fun m F s' h => ?_⟩
  · obtain ⟨he, hcode⟩ := emits_of_step h
    exact ⟨hcode, Expr.disciplined he⟩
  · obtain ⟨ht, hcode⟩ := emits_of_step h
    exact ⟨hcode, Stmt.disciplined ht⟩
  · obtain ⟨hm, hcode⟩ := emits_of_step h
    exact ⟨hcode, Method.disciplined hm⟩

/-- A session inside a method with a parameter and a local, with some code and labels behind it. -/
def insideMethod : Session where
  scope := ⟨⟨4, [], [⟨"f", some ⟨0⟩, [⟨"n", ⟨0⟩, ⟨1, 1⟩⟩], [⟨"k", ⟨0⟩, ⟨1, 5⟩⟩]⟩]⟩,
    some ⟨"f", some ⟨0⟩, [⟨"n", ⟨0⟩, ⟨1, 1⟩⟩], [⟨"k", ⟨0⟩, ⟨1, 5⟩⟩]⟩⟩
  labels := ⟨7, []⟩
  code := [.halt]

/-- A loop that returns out of itself, with a call above another operand. -/
def returningLoop : Stmt :=
  .whileDo (.var "n" ⟨2, 7⟩) (.ret (some (.binary .add (.int 5 ⟨2, 20⟩)
    (.call "f" [.var "n" ⟨2, 26⟩, .var "k" ⟨2, 29⟩] ⟨2, 24⟩) ⟨2, 22⟩)) ⟨2, 13⟩) ⟨2, 1⟩

theorem emit_stack_disciplined_returningLoop :
    ∃ F s', insideMethod.step (.emit (.stmt returningLoop)) = (.emitted F none, s') ∧
      F.length = 22 ∧ F[16]? = some (.call (methodLabel "f")) ∧ F[19]? = some .ret ∧
      ∃ h, Disciplined F returningLoop.calls insideMethod.labels s'.labels h ∧ h F.length = 0 ∧
        ∀ k, F[k]? = some .ret → h k = 2 := by
  have hstep : ∃ F s', insideMethod.step (.emit (.stmt returningLoop)) = (.emitted F none, s') ∧
      F.length = 22 ∧ F[16]? = some (.call (methodLabel "f")) ∧ F[19]? = some .ret :=
    ⟨_, _, rfl, by decide +kernel, by decide +kernel, by decide +kernel⟩
  obtain ⟨F, s', h, hlength, hcall, hret⟩ := hstep
  obtain ⟨-, hF⟩ := (emit_stack_disciplined insideMethod).2.1 returningLoop F s' h
  exact ⟨F, s', h, hlength, hcall, hret, hF⟩

end Lpl
