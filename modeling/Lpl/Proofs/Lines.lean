import Lpl.Proofs.Execution

/-!
# Lines that work on top of a state

`Stacked` says what is on the stack of a state, and nothing of the memory below it. Lines that only
compute keep all of that: besides the few words that they use on top of the stack of `base`, a state
`Atop` it differs from `base` in its line only. One lemma for each kind of line says which words it takes
and leaves, and `Comes` puts lines together.
-/

namespace Lpl.Machine

variable {img : Image}

/-! ## Runs to a kind of state -/

/-- Of two states that a run comes to, one comes first. -/
theorem Reaches.total {s s₁ s₂ : State} (h₁ : Reaches img s s₁) (h₂ : Reaches img s s₂) :
    Reaches img s₁ s₂ ∨ Reaches img s₂ s₁ := by
  refine Relation.ReflTransGen.total_of_right_unique (fun a b c hb hc => ?_) h₁ h₂
  cases hb.symm.trans hc
  rfl

/-- No state comes after one where the machine halts. -/
theorem Reaches.eq_of_halt {s s' s'' : State} (h : Reaches img s s')
    (hend : step img s = .ok false s'') : s' = s := by
  rcases Relation.ReflTransGen.cases_head h with rfl | ⟨s₁, hstep, -⟩
  · rfl
  · cases hend.symm.trans hstep

/-- The machine goes on to a state in `Q`. -/
def Goes (img : Image) (Q : State → Prop) (s : State) : Prop :=
  ∃ s', step img s = .ok true s' ∧ Q s'

/-- The machine comes to a state in `Q`. -/
def Comes (img : Image) (Q : State → Prop) (s : State) : Prop := ∃ s', Reaches img s s' ∧ Q s'

section

variable {Q R : State → Prop} {s : State}

theorem Comes.here (h : Q s) : Comes img Q s := ⟨s, .refl s, h⟩

theorem Comes.trans (h : Comes img Q s) (hQ : ∀ s', Q s' → Comes img R s') : Comes img R s := by
  obtain ⟨s₁, h₁, hq⟩ := h
  obtain ⟨s₂, h₂, hr⟩ := hQ s₁ hq
  exact ⟨s₂, h₁.trans h₂, hr⟩

theorem Goes.comes (h : Goes img Q s) : Comes img Q s := by
  obtain ⟨s', hs, hq⟩ := h
  exact ⟨s', .single hs, hq⟩

/-- A line, and then others. -/
theorem Goes.then (h : Goes img Q s) (hQ : ∀ s', Q s' → Comes img R s') : Comes img R s :=
  h.comes.trans hQ

/-- Within `n` steps, each of them at a line from `lo` on and before `hi`, the machine comes to a state
in `Q`. -/
def ComesWithin (img : Image) (lo hi : Nat) (Q : State → Prop) : Nat → State → Prop
  | 0, s => Q s
  | n + 1, s => Q s ∨ (lo ≤ s.pc ∧ s.pc < hi) ∧ Goes img (ComesWithin img lo hi Q n) s

namespace ComesWithin

variable {lo hi n : Nat}

theorem here (h : Q s) : ComesWithin img lo hi Q n s := by
  cases n with
  | zero => exact h
  | succ n => exact .inl h

theorem step (hlo : lo ≤ s.pc) (hhi : s.pc < hi) (h : Goes img Q s)
    (hQ : ∀ s', Q s' → ComesWithin img lo hi R n s') : ComesWithin img lo hi R (n + 1) s := by
  obtain ⟨s', hs, hq⟩ := h
  exact .inr ⟨⟨hlo, hhi⟩, s', hs, hQ s' hq⟩

theorem imp (hQ : ∀ s', Q s' → R s') (h : ComesWithin img lo hi Q n s) :
    ComesWithin img lo hi R n s := by
  induction n generalizing s with
  | zero => exact hQ s h
  | succ n ih =>
    rcases h with h | ⟨hline, s', hs, h⟩
    · exact .inl (hQ s h)
    · exact .inr ⟨hline, s', hs, ih h⟩

end ComesWithin

end

/-! ## States on top of a state -/

/-- What is on top of a state that is itself on top of another one. -/
theorem Stacked.trans {w : Int} {base s s' : State} {us vs : List Int32} (hw : 0 < w)
    (h : Stacked w base us s) (h' : Stacked w s vs s') : Stacked w base (vs ++ us) s' where
  sp := by
    rw [h'.sp, h.sp, List.length_append, Int.natCast_add, Int.add_mul]
    omega
  words j v hj := by
    rcases Nat.lt_or_ge j vs.length with hlt | hge
    · exact h'.words j v (List.getElem?_append_left hlt ▸ hj)
    · rw [List.getElem?_append_right hge] at hj
      have hword := h.words (j - vs.length) v hj
      have hpos : 0 ≤ ((j - vs.length : Nat) : Int) * w :=
        Int.mul_nonneg (Int.natCast_nonneg _) (Int.le_of_lt hw)
      have haddr : s'.sp + j * w = s.sp + ((j - vs.length : Nat) : Int) * w := by
        rw [h'.sp, Int.natCast_sub hge, Int.sub_mul]
        omega
      rw [haddr, h'.above _ (by omega), hword]
  above a ha := by
    have := h.sp_le hw
    rw [h'.above a (by omega), h.above a ha]
  fp := h'.fp.trans h.fp
  callDepths := h'.callDepths.trans h.callDepths

/-- The state with `n` words fewer on the stack. -/
def State.dropAll (w : Int) (n : Nat) (s : State) : State := { s with sp := s.sp + n * w }

/-- At line `k`, with the words `vs` on top of the stack of `base`. All else is as in `base`, but for
the `room` words below its stack. -/
structure Atop (w : Int) (room : Nat) (base : State) (k : Nat) (vs : List Int32) (s : State) :
    Prop where
  pos : 0 < w
  top : base.sp < stackTop + w
  fits : vs.length ≤ room
  pc : s.pc = k
  stacked : Stacked w base vs s
  below : ∀ a, a < base.sp - room * w → s.memory.read a = base.memory.read a
  heap : s.heap = base.heap
  output : s.output = base.output

namespace Atop

variable {w : Int} {room k : Nat} {base s : State} {u v : Int32} {vs : List Int32}

theorem refl (hw : 0 < w) (htop : s.sp < stackTop + w) : Atop w room s s.pc [] s :=
  ⟨hw, htop, Nat.zero_le _, rfl, .refl s, fun _ _ => rfl, rfl, rfl⟩

/-- A state is on top of what is below some of its words. -/
theorem of_words (hw : 0 < w) (hroom : vs.length ≤ room) (htop : s.sp + vs.length * w < stackTop + w)
    (hwords : ∀ (j : Nat) v, vs[j]? = some v → s.memory.read (s.sp + j * w) = v) :
    Atop w room (s.dropAll w vs.length) s.pc vs s where
  pos := hw
  top := htop
  fits := hroom
  pc := rfl
  stacked := ⟨(Int.add_sub_cancel _ _).symm, hwords, fun _ _ => rfl, rfl, rfl⟩
  below _ _ := rfl
  heap := rfl
  output := rfl

theorem goto (h : Atop w room base k vs s) (n : Nat) : Atop w room base n vs (s.goto n) :=
  { h with pc := rfl, stacked := h.stacked.goto n }

theorem drop (h : Atop w room base k (v :: vs) s) : Atop w room base k vs (s.drop w) :=
  { h with fits := Nat.le_of_succ_le h.fits, stacked := h.stacked.drop }

theorem push (h : Atop w room base k vs s) (hroom : vs.length < room) (v : Int32) :
    Atop w room base k (v :: vs) (s.push w v) where
  pos := h.pos
  top := h.top
  fits := hroom
  pc := h.pc
  stacked := h.stacked.push h.pos v
  below a ha := by
    have hle : ((vs.length + 1 : Nat) : Int) * w ≤ room * w :=
      Int.mul_le_mul_of_nonneg_right (by omega) (Int.le_of_lt h.pos)
    have hsp := h.stacked.sp
    rw [Int.natCast_add, Int.add_mul, Int.natCast_one, Int.one_mul] at hle
    rw [State.memory_push, Memory.read_write_of_ne _ (by omega)]
    exact h.below a ha
  heap := h.heap
  output := h.output

/-- Memory outside the room on top of `base` is as it was. -/
theorem read_eq (h : Atop w room base k vs s) {a : Int}
    (ha : a < base.sp - room * w ∨ base.sp ≤ a) : s.memory.read a = base.memory.read a :=
  ha.elim (h.below a) (h.stacked.above a)

theorem sp_lt (h : Atop w room base k (v :: vs) s) : s.sp < stackTop := by
  have hsp := h.stacked.sp
  have htop := h.top
  have hpos : 0 ≤ (vs.length : Int) * w := Int.mul_nonneg (Int.natCast_nonneg _) (Int.le_of_lt h.pos)
  rw [Stacked.length_cons_mul] at hsp
  omega

theorem second (h : Atop w room base k (v :: u :: vs) s) : s.memory.read (s.sp + w) = u :=
  h.stacked.drop.top

/-! ### Lines -/

theorem code_eq (h : Atop w room base k vs s) {i : Instruction}
    (hi : img.code.toList[k]? = some i) : img.code[s.pc]? = some i := by
  rw [h.pc, ← Array.getElem?_toList, hi]

/-- A line that pushes the word `v`. -/
theorem pushed (h : Atop img.wordSize room base k vs s) (hroom : vs.length < room)
    (hstep : step img s = .ok true ((s.push img.wordSize v).goto (s.pc + 1))) :
    Goes img (Atop img.wordSize room base (k + 1) (v :: vs)) s := by
  rw [h.pc] at hstep
  exact ⟨_, hstep, (h.push hroom v).goto (k + 1)⟩

/-- A line that makes the word `v` of the word on top. -/
theorem replaced (h : Atop img.wordSize room base k (u :: vs) s)
    (hstep : step img s = .ok true
      (((s.drop img.wordSize).push img.wordSize v).goto (s.pc + 1))) :
    Goes img (Atop img.wordSize room base (k + 1) (v :: vs)) s := by
  rw [h.pc] at hstep
  exact ⟨_, hstep, (h.drop.push h.fits v).goto (k + 1)⟩

/-- A line that makes the word `r` of the two words on top. -/
theorem combined {r : Int32} (h : Atop img.wordSize room base k (v :: u :: vs) s)
    (hstep : step img s = .ok true
      ((((s.drop img.wordSize).drop img.wordSize).push img.wordSize r).goto (s.pc + 1))) :
    Goes img (Atop img.wordSize room base (k + 1) (r :: vs)) s := by
  rw [h.pc] at hstep
  exact ⟨_, hstep, (h.drop.drop.push (Nat.lt_of_succ_lt h.fits) r).goto (k + 1)⟩

theorem line_push (hi : img.code.toList[k]? = some (.push v)) (hroom : vs.length < room)
    (h : Atop img.wordSize room base k vs s) :
    Goes img (Atop img.wordSize room base (k + 1) (v :: vs)) s :=
  h.pushed hroom (step_push (h.code_eq hi))

theorem line_getDp (hi : img.code.toList[k]? = some .getDp) (hroom : vs.length < room)
    (h : Atop img.wordSize room base k vs s) :
    Goes img (Atop img.wordSize room base (k + 1) (0 :: vs)) s :=
  h.pushed hroom (step_getDp (h.code_eq hi))

theorem line_loadi {l : String} {a : Int} (hi : img.code.toList[k]? = some (.loadi l))
    (hl : img.addresses[l]? = some a) (hroom : vs.length < room)
    (h : Atop img.wordSize room base k vs s) :
    Goes img (Atop img.wordSize room base (k + 1) (s.memory.read a :: vs)) s :=
  h.pushed hroom (step_loadi (h.code_eq hi) hl)

theorem line_load (hi : img.code.toList[k]? = some .load)
    (h : Atop img.wordSize room base k (u :: vs) s) :
    Goes img (Atop img.wordSize room base (k + 1) (s.memory.read u.toInt :: vs)) s := by
  have hstep := step_load h.sp_lt (h.code_eq hi)
  rw [h.stacked.top] at hstep
  exact h.replaced hstep

theorem line_testZ (hi : img.code.toList[k]? = some .testZ)
    (h : Atop img.wordSize room base k (v :: vs) s) :
    Goes img (Atop img.wordSize room base (k + 1) ((if v = 0 then 1 else 0) :: vs)) s := by
  have hstep := step_testZ h.sp_lt (h.code_eq hi)
  rw [h.stacked.top] at hstep
  exact h.replaced hstep

theorem line_testN (hi : img.code.toList[k]? = some .testN)
    (h : Atop img.wordSize room base k (v :: vs) s) :
    Goes img (Atop img.wordSize room base (k + 1) ((if v.toInt < 0 then 1 else 0) :: vs)) s := by
  have hstep := step_testN h.sp_lt (h.code_eq hi)
  rw [h.stacked.top] at hstep
  exact h.replaced hstep

theorem line_add (hi : img.code.toList[k]? = some .add)
    (h : Atop img.wordSize room base k (v :: u :: vs) s) :
    Goes img (Atop img.wordSize room base (k + 1) ((u + v) :: vs)) s := by
  have hstep := step_combine h.sp_lt h.drop.sp_lt (h.code_eq hi) rfl (v := u + v)
    (by rw [h.stacked.top, h.second])
  exact h.combined hstep

theorem line_sub (hi : img.code.toList[k]? = some .sub)
    (h : Atop img.wordSize room base k (v :: u :: vs) s) :
    Goes img (Atop img.wordSize room base (k + 1) ((u - v) :: vs)) s := by
  have hstep := step_combine h.sp_lt h.drop.sp_lt (h.code_eq hi) rfl (v := u - v)
    (by rw [h.stacked.top, h.second])
  exact h.combined hstep

theorem line_store (hi : img.code.toList[k]? = some .store)
    (h : Atop img.wordSize room base k (v :: u :: vs) s) :
    Goes img (fun s' => ∃ s₁, Atop img.wordSize room base k vs s₁ ∧
      s' = (s₁.store u.toInt v).goto (k + 1)) s := by
  have hstep := step_store h.sp_lt h.drop.sp_lt (h.code_eq hi)
  rw [h.stacked.top, h.second, h.pc] at hstep
  exact ⟨_, hstep, _, h.drop.drop, rfl⟩

theorem line_jumpIfZero {l : String} {n : Nat} (hi : img.code.toList[k]? = some (.jumpIfZero l))
    (hl : img.places[l]? = some n) (h : Atop img.wordSize room base k (v :: vs) s) :
    Goes img (Atop img.wordSize room base (if v = 0 then n else k + 1) vs) s := by
  have hstep := step_jumpIfZero h.sp_lt (h.code_eq hi) hl
  rw [h.stacked.top, h.pc] at hstep
  exact ⟨_, hstep, h.drop.goto _⟩

end Atop

/-! ## Code that leaves a value -/

/-- The code `F` stands at the line of `s`, and a run through it from `s` to `s'` leaves the word `v` on
the stack. -/
structure LeavesWord (img : Image) (F : Assembly) (v : Int32) (s s' : State) : Prop where
  code : Assembly.HasAt img.code.toList s.pc F
  reaches : Reaches img s s'
  pc : s'.pc = s.pc + F.length
  stacked : Stacked img.wordSize s [v] s'

/-- A literal leaves its value. -/
theorem leaves_push {v : Int32} {s : State} (hw : 0 < img.wordSize)
    (hi : Assembly.HasAt img.code.toList s.pc [.push v]) :
    LeavesWord img [.push v] v s ((s.push img.wordSize v).goto (s.pc + 1)) where
  code := hi
  reaches := .single (step_push (by rw [← Array.getElem?_toList, hi.head]))
  pc := rfl
  stacked := ((Stacked.refl s).push hw v).goto _

end Lpl.Machine
