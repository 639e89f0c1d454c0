import Lpl.Proofs.Execution
import Lpl.Proofs.Interpreter
import Lpl.Proofs.Labels

/-!
# Simulation of the interpreter by the machine

`Simulates r Q s` says what the machine does from `s` on when the interpreter has the result `r`: it
reaches a state in `Q` that belongs to the value and the world of `r`, or it faults as `r` does and
shows the world of `r` then. A run is `Safe` as long as the stack stays above the data segment, and
only such runs count.

States are described by `At`: the line, the words on top of the stack, and the world that the data
segment shows. Each line of code goes from one such description to another.
-/

namespace Lpl

open Machine

/-! ## Linked code -/

/-- The image `img` holds `code` and its data words in the `d` bytes from address 0. Globals come
first, and other words are behind them. -/
structure Linked (t : Table) (code : Assembly) (img : Image) (d : Int) : Prop where
  code_eq : ∀ k : Nat, img.code[k]? = code[k]?
  wordSize : img.wordSize = t.wordSize
  wordSize_pos : (0 : Int) < t.wordSize
  globals_le : (t.globals.length * t.wordSize : Int) ≤ d
  places : ∀ {k : Nat} {l}, code[k]? = some (.label l) → img.places[l]? = some k
  words : ∀ {l}, l ∈ code.words →
    ∃ a, img.addresses[l]? = some a ∧ t.globals.length * t.wordSize ≤ a ∧ a < d
  short : code.length < 2147483648

namespace Linked

variable {t : Table} {code : Assembly} {img : Image} {d : Int}

theorem data_nonneg (L : Linked t code img d) : 0 ≤ d :=
  Int.le_trans (Int.mul_nonneg (Int.natCast_nonneg _) (Int.le_of_lt L.wordSize_pos)) L.globals_le

end Linked

theorem getElem?_of_slot? {x : String} {ds : List Decl} {i : Nat} {ty : VarType}
    (h : Scope.slot? x ds = some (i, ty)) : ∃ d, ds[i]? = some d ∧ d.name = x := by
  induction ds generalizing i with
  | nil => cases h
  | cons d ds ih =>
    rw [Scope.slot?] at h
    split at h
    · next hname =>
      cases h
      exact ⟨d, rfl, hname⟩
    · obtain ⟨⟨j, ty'⟩, hj, he⟩ := Option.map_eq_some_iff.1 h
      cases he
      exact ih hj

theorem isSome_slot? {d : Decl} {ds : List Decl} (h : d ∈ ds) : (Scope.slot? d.name ds).isSome := by
  induction ds with
  | nil => cases h
  | cons d' ds ih =>
    rw [Scope.slot?]
    split
    · rfl
    · next hname =>
      rcases List.mem_cons.1 h with rfl | h
      · exact absurd rfl hname
      · rw [Option.isSome_map]
        exact ih h

theorem slot?_lt {x : String} {ds : List Decl} {i : Nat} {ty : VarType}
    (h : Scope.slot? x ds = some (i, ty)) : i < ds.length := by
  obtain ⟨d, hd, -⟩ := getElem?_of_slot? h
  exact (List.getElem?_eq_some_iff.1 hd).1

/-- A slot is one name's only. -/
theorem slot?_inj {x y : String} {ds : List Decl} {i : Nat} {ty ty' : VarType}
    (hx : Scope.slot? x ds = some (i, ty)) (hy : Scope.slot? y ds = some (i, ty')) : x = y := by
  obtain ⟨d, hd, rfl⟩ := getElem?_of_slot? hx
  obtain ⟨d', hd', rfl⟩ := getElem?_of_slot? hy
  cases hd.symm.trans hd'
  rfl

/-- Globals are words of the data segment. -/
theorem Linked.global_lt {t : Table} {code : Assembly} {img : Image} {d : Int}
    (L : Linked t code img d) {x : String} {v : Variable} (h : Scope.global? t x = some v) :
    0 ≤ v.place.displacement t.wordSize ∧
      v.place.displacement t.wordSize < t.globals.length * t.wordSize := by
  obtain ⟨⟨i, ty⟩, hi, rfl⟩ := Option.map_eq_some_iff.1 h
  have hlt := slot?_lt hi
  have hpos := L.wordSize_pos
  constructor
  · exact Int.natCast_nonneg _
  · show ((i * t.wordSize : Nat) : Int) < t.globals.length * t.wordSize
    rw [Int.natCast_mul]
    exact Int.mul_lt_mul_of_pos_right (by omega) hpos

/-! ## Worlds in memory -/

/-- The state shows the world: the output, and the globals in the data segment. -/
structure Shows (t : Table) (w : World) (s : State) : Prop where
  output : s.output = w.output
  globals : ∀ x, w.globals.lookup x =
    (Scope.global? t x).map fun v => s.memory.read (v.place.displacement t.wordSize)

theorem Shows.of_data {t : Table} {code : Assembly} {img : Image} {d : Int} {w : World}
    {s s' : State} (L : Linked t code img d) (h : Shows t w s) (hout : s'.output = s.output)
    (hmem : ∀ a : Int, a < t.globals.length * t.wordSize → s'.memory.read a = s.memory.read a) :
    Shows t w s' where
  output := hout.trans h.output
  globals x := by
    rw [h.globals x]
    cases hv : Scope.global? t x with
    | none => rfl
    | some v => exact congrArg some (hmem _ (L.global_lt hv).2).symm

/-! ## Safe runs -/

/-- On every run from `s` the stack stays above the `d` bytes of the data segment. -/
def Safe (img : Image) (d : Int) (s : State) : Prop := ∀ s', Reaches img s s' → d ≤ s'.sp

theorem Safe.le {img : Image} {d : Int} {s : State} (h : Safe img d s) : d ≤ s.sp :=
  h s (.refl s)

theorem Safe.reaches {img : Image} {d : Int} {s s' : State} (h : Safe img d s)
    (hs : Reaches img s s') : Safe img d s' :=
  fun s'' hs' => h s'' (hs.trans hs')

/-- From `s` on, a safe run comes to a state in `Q`. -/
def Leads (img : Image) (d : Int) (Q : State → Prop) (s : State) : Prop :=
  Safe img d s → ∃ s', Reaches img s s' ∧ Q s'

namespace Leads

variable {img : Image} {d : Int} {Q R : State → Prop} {s s' : State}

theorem here (h : Q s) : Leads img d Q s := fun _ => ⟨s, .refl s, h⟩

theorem step (hs : Machine.step img s = .ok true s') (h : d ≤ s.sp → d ≤ s'.sp → Q s') :
    Leads img d Q s := fun hsafe =>
  ⟨s', .single hs, h hsafe.le (hsafe s' (.single hs))⟩

theorem trans (h : Leads img d Q s) (hQ : ∀ s', Q s' → Leads img d R s') : Leads img d R s :=
  fun hsafe => by
    obtain ⟨s₁, h₁, hq⟩ := h hsafe
    obtain ⟨s₂, h₂, hr⟩ := hQ s₁ hq (hsafe.reaches h₁)
    exact ⟨s₂, h₁.trans h₂, hr⟩

end Leads

/-- The machine does from `s` on what the interpreter does with the result `r`. -/
def Simulates {α : Type} (t : Table) (img : Image) (d : Int) (r : EStateM.Result Stop World α)
    (Q : α → World → State → Prop) (s : State) : Prop :=
  Safe img d s →
    match r with
    | .ok a w => ∃ s', Reaches img s s' ∧ Q a w s'
    | .error .divisionByZero w =>
      ∃ s' s'', Reaches img s s' ∧ step img s' = .error .divisionByZero s'' ∧ Shows t w s''
    | .error .outOfFuel _ => True
    | .error .stuck _ => False

namespace Simulates

variable {α β : Type} {t : Table} {img : Image} {d : Int} {s : State} {w : World}
  {r : EStateM.Result Stop World α} {Q R : α → World → State → Prop}

theorem ok {a : α} (h : Leads img d (Q a w) s) : Simulates t img d (.ok a w) Q s := h

theorem outOfFuel : Simulates t img d (.error .outOfFuel w : EStateM.Result Stop World α) Q s :=
  fun _ => trivial

/-- Lines of code before the simulation. -/
theorem after {P : State → Prop} (h : Leads img d P s)
    (hP : ∀ s', P s' → Simulates t img d r Q s') : Simulates t img d r Q s := fun hsafe => by
  obtain ⟨s₁, h₁, hp⟩ := h hsafe
  have hr := hP s₁ hp (hsafe.reaches h₁)
  match r, hr with
  | .ok a w, ⟨s₂, h₂, hq⟩ => exact ⟨s₂, h₁.trans h₂, hq⟩
  | .error .divisionByZero w, ⟨s₂, s₃, h₂, hfault, hshows⟩ =>
    exact ⟨s₂, s₃, h₁.trans h₂, hfault, hshows⟩
  | .error .outOfFuel w, _ => trivial

theorem bind {x : Eval α} {g : α → Eval β} {R : β → World → State → Prop}
    (hx : Simulates t img d (x w) Q s)
    (hg : ∀ a w' s', Q a w' s' → Simulates t img d (g a w') R s') :
    Simulates t img d ((x >>= g) w) R s := by
  have hbind : (x >>= g) w = EStateM.bind x g w := rfl
  rw [hbind, EStateM.bind]
  cases hxw : x w with
  | ok a w' =>
    rw [hxw] at hx
    exact after (P := Q a w') hx (hg a w')
  | error e w' =>
    rw [hxw] at hx
    cases e <;> exact hx

/-- Lines of code behind the simulation. -/
theorem before (h : Simulates t img d r Q s)
    (hQ : ∀ a w' s', Q a w' s' → Leads img d (R a w') s') : Simulates t img d r R s :=
  fun hsafe => by
    have hr := h hsafe
    match r, hr with
    | .ok a w, ⟨s₁, h₁, hq⟩ =>
      obtain ⟨s₂, h₂, hr⟩ := hQ a w s₁ hq (hsafe.reaches h₁)
      exact ⟨s₂, h₁.trans h₂, hr⟩
    | .error .divisionByZero w, h => exact h
    | .error .outOfFuel w, _ => trivial

end Simulates

/-! ## Lines of code -/

/-- At line `k`, with the words `vs` on the stack of `base`, in the world `w`. -/
structure At (t : Table) (base : State) (k : Nat) (vs : List Int32) (w : World) (s : State) :
    Prop where
  pc : s.pc = k
  stacked : Stacked t.wordSize base vs s
  shows : Shows t w s
  sp_le : base.sp ≤ base.fp
  fp_le : base.fp ≤ stackTop

namespace At

variable {t : Table} {code : Assembly} {img : Image} {d : Int} {base s : State} {k n : Nat}
  {u v : Int32} {vs : List Int32} {w : World}

theorem goto (h : At t base k vs w s) (n : Nat) : At t base n vs w (s.goto n) :=
  ⟨rfl, h.stacked.goto n, ⟨h.shows.output, h.shows.globals⟩, h.sp_le, h.fp_le⟩

theorem drop (h : At t base k (v :: vs) w s) : At t base k vs w (s.drop t.wordSize) :=
  ⟨h.pc, h.stacked.drop, ⟨h.shows.output, h.shows.globals⟩, h.sp_le, h.fp_le⟩

variable (L : Linked t code img d)

include L

theorem code_eq (h : At t base k vs w s) {i : Instruction} (hi : code[k]? = some i) :
    img.code[s.pc]? = some i := by
  rw [L.code_eq, h.pc, hi]

theorem sp_lt (h : At t base k (v :: vs) w s) : s.sp < stackTop := by
  have := h.stacked.sp_lt L.wordSize_pos
  have := h.sp_le
  have := h.fp_le
  omega

theorem push (h : At t base k vs w s) (hd : d ≤ s.sp - t.wordSize) (v : Int32) :
    At t base k (v :: vs) w (s.push t.wordSize v) where
  pc := h.pc
  stacked := h.stacked.push L.wordSize_pos v
  shows := by
    refine h.shows.of_data L rfl fun a ha => ?_
    have := L.globals_le
    exact Memory.read_write_of_ne _ (by omega) v
  sp_le := h.sp_le
  fp_le := h.fp_le

/-- A word behind the globals may change. -/
theorem store (h : At t base k vs w s) {a : Int} (ha : t.globals.length * t.wordSize ≤ a)
    (ha' : a < s.sp) (v : Int32) : At t base k vs w (s.store a v) where
  pc := h.pc
  stacked := h.stacked.store L.wordSize_pos ha' v
  shows := h.shows.of_data L rfl fun b hb => Memory.read_write_of_ne _ (by omega) v
  sp_le := h.sp_le
  fp_le := h.fp_le

/-- A line that pushes the word `v`. -/
theorem pushed (h : At t base k vs w s)
    (hstep : step img s = .ok true ((s.push img.wordSize v).goto (s.pc + 1))) :
    Leads img d (At t base (k + 1) (v :: vs) w) s := by
  rw [L.wordSize] at hstep
  refine .step hstep fun _ hd => ?_
  rw [h.pc]
  exact (h.push L hd v).goto (k + 1)

theorem line_push (hi : code[k]? = some (.push v)) (h : At t base k vs w s) :
    Leads img d (At t base (k + 1) (v :: vs) w) s :=
  h.pushed L (step_push (h.code_eq L hi))

theorem line_getFp (hi : code[k]? = some .getFp) (h : At t base k vs w s) :
    Leads img d (At t base (k + 1) (.ofInt base.fp :: vs) w) s :=
  h.pushed L (h.stacked.fp ▸ step_getFp (h.code_eq L hi))

theorem line_getDp (hi : code[k]? = some .getDp) (h : At t base k vs w s) :
    Leads img d (At t base (k + 1) (0 :: vs) w) s :=
  h.pushed L (step_getDp (h.code_eq L hi))

theorem line_label {l : String} (hi : code[k]? = some (.label l)) (h : At t base k vs w s) :
    Leads img d (At t base (k + 1) vs w) s := by
  refine .step (step_label (h.code_eq L hi)) fun _ _ => ?_
  rw [h.pc]
  exact h.goto (k + 1)

theorem line_jump {l : String} (hi : code[k]? = some (.jump l)) (hl : code[n]? = some (.label l))
    (h : At t base k vs w s) : Leads img d (At t base n vs w) s :=
  .step (step_jump (h.code_eq L hi) (L.places hl)) fun _ _ => h.goto n

/-- A line that makes the word `v` of the word on top. -/
theorem replaced (h : At t base k (u :: vs) w s)
    (hstep : step img s = .ok true
      (((s.drop img.wordSize).push img.wordSize v).goto (s.pc + 1))) :
    Leads img d (At t base (k + 1) (v :: vs) w) s := by
  rw [L.wordSize] at hstep
  refine .step hstep fun hd _ => ?_
  rw [h.pc]
  refine (h.drop.push L ?_ v).goto (k + 1)
  rw [State.sp_drop]
  omega

theorem line_load (hi : code[k]? = some .load) (h : At t base k (u :: vs) w s)
    (hv : s.memory.read u.toInt = v) : Leads img d (At t base (k + 1) (v :: vs) w) s := by
  have hstep := step_load (h.sp_lt L) (h.code_eq L hi)
  rw [h.stacked.top, hv] at hstep
  exact h.replaced L hstep

theorem line_testZ (hi : code[k]? = some .testZ) (h : At t base k (v :: vs) w s) :
    Leads img d (At t base (k + 1) (truth (v = 0) :: vs) w) s := by
  have hstep := step_testZ (h.sp_lt L) (h.code_eq L hi)
  rw [h.stacked.top] at hstep
  exact h.replaced L hstep

theorem line_testN (hi : code[k]? = some .testN) (h : At t base k (v :: vs) w s) :
    Leads img d (At t base (k + 1) (truth (v.toInt < 0) :: vs) w) s := by
  have hstep := step_testN (h.sp_lt L) (h.code_eq L hi)
  rw [h.stacked.top] at hstep
  exact h.replaced L hstep

theorem line_jumpIfZero {l : String} (hi : code[k]? = some (.jumpIfZero l))
    (hl : code[n]? = some (.label l)) (h : At t base k (v :: vs) w s) :
    Leads img d (At t base (if v = 0 then n else k + 1) vs w) s := by
  have hstep := step_jumpIfZero (h.sp_lt L) (h.code_eq L hi) (L.places hl)
  rw [h.stacked.top, L.wordSize, h.pc] at hstep
  exact .step hstep fun _ _ => h.drop.goto _

theorem printed {text : String} (h : At t base k (v :: vs) w s)
    (hstep : step img s = .ok true (((s.drop img.wordSize).print text).goto (s.pc + 1))) :
    Leads img d (At t base (k + 1) vs { w with output := w.output ++ text }) s := by
  rw [L.wordSize, h.pc] at hstep
  refine .step hstep fun _ _ => ?_
  have hout : s.output ++ text = w.output ++ text := congrArg (· ++ text) h.shows.output
  exact ⟨rfl, (h.stacked.drop.print text).goto _, ⟨hout, h.shows.globals⟩, h.sp_le, h.fp_le⟩

theorem line_outDec (hi : code[k]? = some .outDec) (h : At t base k (v :: vs) w s) :
    Leads img d (At t base (k + 1) vs { w with output := w.output ++ toString v }) s := by
  have hstep := step_outDec (h.sp_lt L) (h.code_eq L hi)
  rw [h.stacked.top] at hstep
  exact h.printed L hstep

theorem line_outChar (hi : code[k]? = some .outChar) (h : At t base k (v :: vs) w s) :
    Leads img d (At t base (k + 1) vs
      { w with output := w.output ++ String.singleton (charOf v) }) s := by
  have hstep := step_outChar (h.sp_lt L) (h.code_eq L hi)
  rw [h.stacked.top] at hstep
  exact h.printed L hstep

/-- The step of a line that combines two words into one. -/
theorem step_combined {i : Instruction} {f : Int32 → Int32 → Exec Int32} {r : Int32}
    (hf : ∀ n, execute img n i = (do combine img f; return some n)) (hr : f u v = pure r)
    (hi : code[k]? = some i) (h : At t base k (v :: u :: vs) w s) :
    step img s = .ok true ((((s.drop t.wordSize).drop t.wordSize).push t.wordSize r).goto
      (k + 1)) := by
  have hlt : s.sp + img.wordSize < stackTop := by
    rw [L.wordSize]
    exact h.drop.sp_lt L
  have hu : s.memory.read (s.sp + img.wordSize) = u := by
    rw [L.wordSize]
    exact h.drop.stacked.top
  have hstep := step_combine (h.sp_lt L) hlt (h.code_eq L hi) (hf _) (v := r)
    (by rw [h.stacked.top, hu]; exact hr)
  rwa [L.wordSize, h.pc] at hstep

theorem combined (h : At t base k (v :: u :: vs) w s) (hd : d ≤ s.sp) (r : Int32) :
    At t base (k + 1) (r :: vs) w
      ((((s.drop t.wordSize).drop t.wordSize).push t.wordSize r).goto (k + 1)) := by
  have hw := L.wordSize_pos
  refine (h.drop.drop.push L ?_ r).goto (k + 1)
  rw [State.sp_drop, State.sp_drop]
  omega

theorem line_combine {i : Instruction} {f : Int32 → Int32 → Exec Int32} {r : Int32}
    (hf : ∀ n, execute img n i = (do combine img f; return some n)) (hr : f u v = pure r)
    (hi : code[k]? = some i) (h : At t base k (v :: u :: vs) w s) :
    Leads img d (At t base (k + 1) (r :: vs) w) s :=
  .step (h.step_combined L hf hr hi) fun hd _ => h.combined L hd r

theorem line_add (hi : code[k]? = some .add) (h : At t base k (v :: u :: vs) w s) :
    Leads img d (At t base (k + 1) ((u + v) :: vs) w) s :=
  h.line_combine L (fun _ => rfl) rfl hi

theorem line_sub (hi : code[k]? = some .sub) (h : At t base k (v :: u :: vs) w s) :
    Leads img d (At t base (k + 1) ((u - v) :: vs) w) s :=
  h.line_combine L (fun _ => rfl) rfl hi

theorem line_mul (hi : code[k]? = some .mul) (h : At t base k (v :: u :: vs) w s) :
    Leads img d (At t base (k + 1) ((u * v) :: vs) w) s :=
  h.line_combine L (fun _ => rfl) rfl hi

theorem line_div (hi : code[k]? = some .div) (h : At t base k (v :: u :: vs) w s) :
    Simulates t img d (BinaryOp.div.apply u v w) (fun r w' => At t base (k + 1) (r :: vs) w') s := by
  by_cases hv : v = 0
  · have hlt : s.sp + img.wordSize < stackTop := by
      rw [L.wordSize]
      exact h.drop.sp_lt L
    have hstep := step_div_zero (h.sp_lt L) hlt (h.code_eq L hi) (h.stacked.top.trans hv)
    have happly : BinaryOp.div.apply u v w = .error .divisionByZero w := by
      rw [BinaryOp.apply, if_pos hv]
      rfl
    rw [happly]
    exact fun _ => ⟨s, _, .refl s, hstep, ⟨h.shows.output, h.shows.globals⟩⟩
  · have happly : BinaryOp.div.apply u v w = .ok (u / v) w := by
      rw [BinaryOp.apply, if_neg hv]
      rfl
    rw [happly]
    exact .ok (h.line_combine L (fun _ => rfl) (if_neg hv) hi)

end At

/-! ## Calls -/

/-- Every call has as many arguments as the method has parameters. -/
def ArgsMatch (t : Table) (cs : List CallSite) : Prop :=
  ∀ c ∈ cs, ∀ m, t.method? c.method = some m → c.argc = m.params.length

namespace ArgsMatch

variable {t : Table} {cs ds : List CallSite}

theorem left (h : ArgsMatch t (cs ++ ds)) : ArgsMatch t cs :=
  fun c hc => h c (List.mem_append_left _ hc)

theorem right (h : ArgsMatch t (cs ++ ds)) : ArgsMatch t ds :=
  fun c hc => h c (List.mem_append_right _ hc)

end ArgsMatch

/-- The code of calls does what `call` does: it takes the arguments from the stack and leaves the
value there. -/
def CallsSimulate (t : Table) (code : Assembly) (img : Image) (d : Int)
    (call : String → List Int32 → Eval Int32) : Prop :=
  ∀ {g m args k base vs w s}, t.method? g = some m → args.length = m.params.length →
    code.HasAt k (callCode g args.length) → At t base k (args ++ vs) w s →
    Simulates t img d (call g args w) (fun v w' => At t base (k + 2) (v :: vs) w') s

end Lpl
