import Lpl.Machine.Run
import Mathlib.Logic.Relation

/-!
# Executing lines of code

What one line does to a state of the machine, in terms of a few changes of state: a word is pushed or
popped, and the machine goes on at some line. `Reaches` is a run that goes on, and `runFor` follows it
to its end.

The stack is looked at from a state `base`: a later state `Stacked` on it has some words on top and
all else at or above the stack pointer as it was.
-/

namespace Lpl

/-! ## Code at a line -/

/-- The lines of `F` stand in the code from line `k` on. -/
def Assembly.HasAt (code : Assembly) (k : Nat) (F : Assembly) : Prop :=
  ∀ j i, F[j]? = some i → code[k + j]? = some i

namespace Assembly.HasAt

variable {code F G : Assembly} {k : Nat} {i : Instruction}

theorem left (h : HasAt code k (F ++ G)) : HasAt code k F := by
  intro j i hj
  have hlt : j < F.length := (List.getElem?_eq_some_iff.1 hj).1
  exact h j i ((List.getElem?_append_left hlt).trans hj)

theorem right (h : HasAt code k (F ++ G)) : HasAt code (k + F.length) G := by
  intro j i hj
  rw [Nat.add_assoc]
  refine h _ i ?_
  rw [List.getElem?_append_right (Nat.le_add_right _ _), Nat.add_sub_cancel_left]
  exact hj

theorem head (h : HasAt code k (i :: F)) : code[k]? = some i := h 0 i rfl

theorem tail (h : HasAt code k (i :: F)) : HasAt code (k + 1) F :=
  right (F := [i]) h

theorem of_eq {A D : Assembly} (h : code = A ++ F ++ D) : HasAt code A.length F := by
  intro j i hj
  have hlt : j < F.length := (List.getElem?_eq_some_iff.1 hj).1
  rw [h, List.append_assoc, List.getElem?_append_right (Nat.le_add_right _ _),
    Nat.add_sub_cancel_left, List.getElem?_append_left hlt]
  exact hj

end Assembly.HasAt

namespace Machine

/-! ## Runs -/

/-- The machine goes on from one state to another. -/
def Reaches (img : Image) : State → State → Prop :=
  Relation.ReflTransGen fun s s' => step img s = .ok true s'

namespace Reaches

variable {img : Image} {s s' s'' : State}

theorem refl (s : State) : Reaches img s s := Relation.ReflTransGen.refl

theorem single (h : step img s = .ok true s') : Reaches img s s' := Relation.ReflTransGen.single h

theorem trans (h : Reaches img s s') (h' : Reaches img s' s'') : Reaches img s s'' :=
  Relation.ReflTransGen.trans h h'

/-- A run that goes on to a state where the machine halts is a run that ends there. -/
theorem runFor_halt (h : Reaches img s s') (hend : step img s' = .ok false s'') :
    ∃ n, runFor img n s = .ok () s'' := by
  induction h using Relation.ReflTransGen.head_induction_on with
  | refl => exact ⟨1, by rw [runFor, hend]⟩
  | head hstep _ ih =>
    obtain ⟨n, hn⟩ := ih
    exact ⟨n + 1, by rw [runFor, hstep]; exact hn⟩

theorem runFor_fault {e : Fault} (h : Reaches img s s') (hend : step img s' = .error e s'') :
    ∃ n, runFor img n s = .error e s'' := by
  induction h using Relation.ReflTransGen.head_induction_on with
  | refl => exact ⟨1, by rw [runFor, hend]⟩
  | head hstep _ ih =>
    obtain ⟨n, hn⟩ := ih
    exact ⟨n + 1, by rw [runFor, hstep]; exact hn⟩

end Reaches

/-! ## Changes of state -/

namespace State

/-- Pushes a word of `w` bytes. -/
def push (w : Int) (v : Int32) (s : State) : State :=
  { s with sp := s.sp - w, memory := s.memory.write (s.sp - w) v }

/-- Drops a word of `w` bytes. -/
def drop (w : Int) (s : State) : State := { s with sp := s.sp + w }

/-- Writes a word to an address. -/
def store (a : Int) (v : Int32) (s : State) : State := { s with memory := s.memory.write a v }

/-- Appends to the output. -/
def print (text : String) (s : State) : State := { s with output := s.output ++ text }

/-- Opens a frame for a call with `argc` arguments that goes on at line `next`. -/
def enter (w : Int) (argc : Int32) (next : Nat) (s : State) : State :=
  { (s.push w (.ofNat next)).push w (.ofInt s.fp) with
    fp := s.sp - w - w
    callDepths := (s.depth w - argc.toInt) :: s.callDepths }

/-- Gives up a frame of the given number of words, and leaves `value` on the stack. -/
def leave (w : Int) (words value : Int32) (s : State) : State :=
  State.push w value
    { s with sp := s.sp + (words.toInt + 2) * w, fp := (s.memory.read s.fp).toInt }

/-- Forgets the innermost open call. -/
def close (s : State) : State := { s with callDepths := s.callDepths.tail }

/-- Goes on at a line. -/
def goto (n : Nat) (s : State) : State := { s with pc := n }

variable (w a : Int) (v : Int32) (n : Nat) (text : String) (s : State)

@[simp] theorem sp_push : (s.push w v).sp = s.sp - w := rfl
@[simp] theorem fp_push : (s.push w v).fp = s.fp := rfl
@[simp] theorem callDepths_push : (s.push w v).callDepths = s.callDepths := rfl
@[simp] theorem memory_push : (s.push w v).memory = s.memory.write (s.sp - w) v := rfl

@[simp] theorem sp_drop : (s.drop w).sp = s.sp + w := rfl
@[simp] theorem fp_drop : (s.drop w).fp = s.fp := rfl
@[simp] theorem callDepths_drop : (s.drop w).callDepths = s.callDepths := rfl
@[simp] theorem memory_drop : (s.drop w).memory = s.memory := rfl

@[simp] theorem sp_store : (s.store a v).sp = s.sp := rfl
@[simp] theorem fp_store : (s.store a v).fp = s.fp := rfl
@[simp] theorem callDepths_store : (s.store a v).callDepths = s.callDepths := rfl
@[simp] theorem memory_store : (s.store a v).memory = s.memory.write a v := rfl

@[simp] theorem sp_print : (s.print text).sp = s.sp := rfl
@[simp] theorem fp_print : (s.print text).fp = s.fp := rfl
@[simp] theorem callDepths_print : (s.print text).callDepths = s.callDepths := rfl
@[simp] theorem memory_print : (s.print text).memory = s.memory := rfl

@[simp] theorem sp_enter (argc : Int32) : (s.enter w argc n).sp = s.sp - w - w := rfl
@[simp] theorem fp_enter (argc : Int32) : (s.enter w argc n).fp = s.sp - w - w := rfl
@[simp] theorem callDepths_enter (argc : Int32) :
    (s.enter w argc n).callDepths = (s.depth w - argc.toInt) :: s.callDepths := rfl
@[simp] theorem memory_enter (argc : Int32) : (s.enter w argc n).memory =
    (s.memory.write (s.sp - w) (.ofNat n)).write (s.sp - w - w) (.ofInt s.fp) := rfl

@[simp] theorem sp_leave (words : Int32) :
    (s.leave w words v).sp = s.sp + (words.toInt + 2) * w - w := rfl
@[simp] theorem fp_leave (words : Int32) :
    (s.leave w words v).fp = (s.memory.read s.fp).toInt := rfl
@[simp] theorem callDepths_leave (words : Int32) :
    (s.leave w words v).callDepths = s.callDepths := rfl
@[simp] theorem memory_leave (words : Int32) :
    (s.leave w words v).memory = s.memory.write (s.sp + (words.toInt + 2) * w - w) v := rfl

@[simp] theorem sp_close : s.close.sp = s.sp := rfl
@[simp] theorem fp_close : s.close.fp = s.fp := rfl
@[simp] theorem callDepths_close : s.close.callDepths = s.callDepths.tail := rfl
@[simp] theorem memory_close : s.close.memory = s.memory := rfl

@[simp] theorem sp_goto : (s.goto n).sp = s.sp := rfl
@[simp] theorem fp_goto : (s.goto n).fp = s.fp := rfl
@[simp] theorem pc_goto : (s.goto n).pc = n := rfl
@[simp] theorem callDepths_goto : (s.goto n).callDepths = s.callDepths := rfl
@[simp] theorem memory_goto : (s.goto n).memory = s.memory := rfl

end State

/-! ## Single lines -/

section Lines

variable {img : Image} {s : State}

theorem step_of_execute {i : Instruction} {n : Nat} {s' : State} (hi : img.code[s.pc]? = some i)
    (he : execute img (s.pc + 1) i s = .ok (some n) s') : step img s = .ok true (s'.goto n) := by
  rw [step, hi]
  simp only [he]
  rfl

theorem step_fault {i : Instruction} {e : Fault} {s' : State} (hi : img.code[s.pc]? = some i)
    (he : execute img (s.pc + 1) i s = .error e s') : step img s = .error e s' := by
  rw [step, hi]
  simp only [he]

theorem pop_eq (h : s.sp < stackTop) :
    pop img s = .ok (s.memory.read s.sp) (s.drop img.wordSize) := by
  rw [pop, if_neg (by omega)]
  rfl

theorem bind_ok {α β : Type} {x : Exec α} {f : α → Exec β} {a : α} {s' : State}
    (h : x s = .ok a s') : (x >>= f) s = f a s' := by
  show EStateM.bind x f s = _
  simp only [EStateM.bind, h]

theorem bind_error {α β : Type} {x : Exec α} {f : α → Exec β} {e : Fault} {s' : State}
    (h : x s = .error e s') : (x >>= f) s = .error e s' := by
  show EStateM.bind x f s = _
  simp only [EStateM.bind, h]

theorem bind_pop {β : Type} {f : Int32 → Exec β} (h : s.sp < stackTop) :
    (pop img >>= f) s = f (s.memory.read s.sp) (s.drop img.wordSize) :=
  bind_ok (pop_eq h)

theorem step_push {v : Int32} (hi : img.code[s.pc]? = some (.push v)) :
    step img s = .ok true ((s.push img.wordSize v).goto (s.pc + 1)) :=
  step_of_execute hi rfl

theorem step_getFp (hi : img.code[s.pc]? = some .getFp) :
    step img s = .ok true ((s.push img.wordSize (.ofInt s.fp)).goto (s.pc + 1)) :=
  step_of_execute hi rfl

theorem step_getDp (hi : img.code[s.pc]? = some .getDp) :
    step img s = .ok true ((s.push img.wordSize 0).goto (s.pc + 1)) :=
  step_of_execute hi rfl

theorem step_label {l : String} (hi : img.code[s.pc]? = some (.label l)) :
    step img s = .ok true (s.goto (s.pc + 1)) :=
  step_of_execute hi rfl

theorem step_jump {l : String} {n : Nat} (hi : img.code[s.pc]? = some (.jump l))
    (hl : img.places[l]? = some n) : step img s = .ok true (s.goto n) := by
  refine step_of_execute hi ?_
  simp only [execute, placeOf, hl]
  rfl

theorem step_loadi {l : String} {a : Int} (hi : img.code[s.pc]? = some (.loadi l))
    (hl : img.addresses[l]? = some a) :
    step img s = .ok true ((s.push img.wordSize (s.memory.read a)).goto (s.pc + 1)) := by
  refine step_of_execute hi ?_
  simp only [execute, addressOf, hl]
  rfl

theorem step_halt (hi : img.code[s.pc]? = some .halt) : step img s = .ok false s := by
  rw [step, hi]
  rfl

section

variable (hs : s.sp < stackTop)

include hs

theorem step_load (hi : img.code[s.pc]? = some .load) :
    step img s = .ok true (((s.drop img.wordSize).push img.wordSize
      (s.memory.read (s.memory.read s.sp).toInt)).goto (s.pc + 1)) :=
  step_of_execute hi (bind_pop hs)

theorem step_storei {l : String} {a : Int} (hi : img.code[s.pc]? = some (.storei l))
    (hl : img.addresses[l]? = some a) :
    step img s = .ok true (((s.drop img.wordSize).store a (s.memory.read s.sp)).goto (s.pc + 1)) := by
  refine step_of_execute hi ?_
  simp only [execute, addressOf, hl]
  exact bind_pop hs

theorem test_eq (p : Int32 → Bool) :
    test img p s = .ok () ((s.drop img.wordSize).push img.wordSize
      (if p (s.memory.read s.sp) then 1 else 0)) :=
  bind_pop hs

theorem step_testZ (hi : img.code[s.pc]? = some .testZ) :
    step img s = .ok true (((s.drop img.wordSize).push img.wordSize
      (if s.memory.read s.sp = 0 then 1 else 0)).goto (s.pc + 1)) := by
  refine step_of_execute hi ((bind_ok (test_eq hs _)).trans ?_)
  simp only [decide_eq_true_eq]
  rfl

theorem step_testN (hi : img.code[s.pc]? = some .testN) :
    step img s = .ok true (((s.drop img.wordSize).push img.wordSize
      (if (s.memory.read s.sp).toInt < 0 then 1 else 0)).goto (s.pc + 1)) := by
  refine step_of_execute hi ((bind_ok (test_eq hs _)).trans ?_)
  simp only [decide_eq_true_eq]
  rfl

theorem step_jumpIfZero {l : String} {n : Nat} (hi : img.code[s.pc]? = some (.jumpIfZero l))
    (hl : img.places[l]? = some n) :
    step img s = .ok true ((s.drop img.wordSize).goto
      (if s.memory.read s.sp = 0 then n else s.pc + 1)) := by
  refine step_of_execute hi ((bind_pop hs).trans ?_)
  by_cases hv : s.memory.read s.sp = 0
  · simp only [if_pos hv, placeOf, hl]
    rfl
  · simp only [if_neg hv]
    rfl

theorem step_outDec (hi : img.code[s.pc]? = some .outDec) :
    step img s = .ok true (((s.drop img.wordSize).print (toString (s.memory.read s.sp))).goto
      (s.pc + 1)) :=
  step_of_execute hi (bind_pop hs)

theorem step_outChar (hi : img.code[s.pc]? = some .outChar) :
    step img s = .ok true (((s.drop img.wordSize).print
      (String.singleton (charOf (s.memory.read s.sp)))).goto (s.pc + 1)) :=
  step_of_execute hi (bind_pop hs)

end

/-! ### Lines that pop two words -/

section

variable (hs : s.sp < stackTop) (hs' : s.sp + img.wordSize < stackTop)

include hs hs'

theorem bind_pop_pop {β : Type} {f : Int32 → Int32 → Exec β} :
    (do let b ← pop img; let a ← pop img; f a b) s =
      f (s.memory.read (s.sp + img.wordSize)) (s.memory.read s.sp)
        ((s.drop img.wordSize).drop img.wordSize) := by
  rw [bind_pop hs]
  exact bind_pop hs'

/-- A line that combines two words into the value that `f` makes of them. -/
theorem step_combine {i : Instruction} {f : Int32 → Int32 → Exec Int32} {v : Int32}
    (hi : img.code[s.pc]? = some i)
    (hf : execute img (s.pc + 1) i = (do combine img f; return some (s.pc + 1)))
    (hv : f (s.memory.read (s.sp + img.wordSize)) (s.memory.read s.sp) = pure v) :
    step img s = .ok true ((((s.drop img.wordSize).drop img.wordSize).push img.wordSize v).goto
      (s.pc + 1)) := by
  have hcombine : combine img f s =
      .ok () (((s.drop img.wordSize).drop img.wordSize).push img.wordSize v) := by
    refine (bind_pop_pop hs hs').trans ?_
    rw [hv]
    rfl
  refine step_of_execute hi ?_
  rw [hf]
  exact bind_ok hcombine

theorem step_div_zero (hi : img.code[s.pc]? = some .div) (hb : s.memory.read s.sp = 0) :
    step img s = .error .divisionByZero ((s.drop img.wordSize).drop img.wordSize) := by
  have hcombine : combine img (fun a b => if b = 0 then throw .divisionByZero else return a / b) s =
      .error .divisionByZero ((s.drop img.wordSize).drop img.wordSize) := by
    refine (bind_pop_pop hs hs').trans ?_
    simp only [hb, if_true]
    rfl
  exact step_fault hi (bind_error hcombine)

theorem step_store (hi : img.code[s.pc]? = some .store) :
    step img s = .ok true ((((s.drop img.wordSize).drop img.wordSize).store
      (s.memory.read (s.sp + img.wordSize)).toInt (s.memory.read s.sp)).goto (s.pc + 1)) :=
  step_of_execute hi (bind_pop_pop hs hs')

end

/-! ### Calls -/

theorem step_call (hs : s.sp < stackTop) {l : String} {n : Nat}
    (hi : img.code[s.pc]? = some (.call l)) (hl : img.places[l]? = some n) :
    step img s = .ok true (((s.drop img.wordSize).enter img.wordSize (s.memory.read s.sp)
      (s.pc + 1)).goto n) := by
  refine step_of_execute hi ((bind_pop hs).trans ?_)
  have henter : enterFrame img (s.memory.read s.sp) (s.pc + 1) (s.drop img.wordSize) =
      .ok () ((s.drop img.wordSize).enter img.wordSize (s.memory.read s.sp) (s.pc + 1)) := rfl
  refine (bind_ok henter).trans ?_
  simp only [placeOf, hl]
  rfl

theorem closeCall_eq {before : Int} {rest : List Int} (hopen : s.callDepths = before :: rest) :
    closeCall img s = if s.depth img.wordSize = before + 1 then .ok () s.close
      else .error (.unbalancedReturn (s.depth img.wordSize) (before + 1)) s.close := by
  unfold closeCall
  split
  · next hnone => exact absurd (hopen.symm.trans hnone) (List.cons_ne_nil _ _)
  · next before' rest' heq =>
    have hcons : before :: rest = before' :: rest' := hopen.symm.trans heq
    obtain ⟨rfl, rfl⟩ := List.cons.inj hcons
    simp only [State.close, heq, List.tail_cons]

section

variable (hs : s.sp < stackTop) (hs' : s.sp + img.wordSize < stackTop) {before : Int}
  {rest : List Int}

include hs hs'

/-- A `ret` gives up the frame and closes the call. -/
theorem execute_ret (n : Nat) : execute img n .ret s =
    (do closeCall img; return some (unsigned (s.memory.read (s.fp + img.wordSize)).toInt))
      (((s.drop img.wordSize).drop img.wordSize).leave img.wordSize (s.memory.read s.sp)
        (s.memory.read (s.sp + img.wordSize))) := by
  refine (bind_pop_pop hs hs').trans ?_
  have hleave : leaveFrame img (s.memory.read s.sp) (s.memory.read (s.sp + img.wordSize))
      ((s.drop img.wordSize).drop img.wordSize) =
      .ok (unsigned (s.memory.read (s.fp + img.wordSize)).toInt)
        (((s.drop img.wordSize).drop img.wordSize).leave img.wordSize (s.memory.read s.sp)
          (s.memory.read (s.sp + img.wordSize))) := rfl
  exact bind_ok hleave

theorem step_ret (hi : img.code[s.pc]? = some .ret) (hopen : s.callDepths = before :: rest)
    (hdepth : (((s.drop img.wordSize).drop img.wordSize).leave img.wordSize (s.memory.read s.sp)
      (s.memory.read (s.sp + img.wordSize))).depth img.wordSize = before + 1) :
    step img s = .ok true ((((s.drop img.wordSize).drop img.wordSize).leave img.wordSize
      (s.memory.read s.sp) (s.memory.read (s.sp + img.wordSize))).close.goto
      (unsigned (s.memory.read (s.fp + img.wordSize)).toInt)) := by
  refine step_of_execute hi ((execute_ret hs hs' _).trans (bind_ok (a := ()) ?_))
  refine (closeCall_eq (?_ : _ = before :: rest)).trans (if_pos hdepth)
  exact hopen

/-- A `ret` that does not leave one word more than there was before the arguments. -/
theorem step_ret_unbalanced (hi : img.code[s.pc]? = some .ret)
    (hopen : s.callDepths = before :: rest)
    (hdepth : (((s.drop img.wordSize).drop img.wordSize).leave img.wordSize (s.memory.read s.sp)
      (s.memory.read (s.sp + img.wordSize))).depth img.wordSize ≠ before + 1) :
    step img s = .error (.unbalancedReturn ((((s.drop img.wordSize).drop img.wordSize).leave
      img.wordSize (s.memory.read s.sp) (s.memory.read (s.sp + img.wordSize))).depth img.wordSize)
      (before + 1)) (((s.drop img.wordSize).drop img.wordSize).leave img.wordSize
      (s.memory.read s.sp) (s.memory.read (s.sp + img.wordSize))).close := by
  refine step_fault hi ((execute_ret hs hs' _).trans (bind_error ?_))
  refine (closeCall_eq (?_ : _ = before :: rest)).trans (if_neg hdepth)
  exact hopen

end

end Lines

/-! ## Words on the stack -/

/-- The state `s` has the words `vs` on top of the stack of `base`, the topmost one first, and what is
at or above the stack pointer of `base` is as it was. -/
structure Stacked (w : Int) (base : State) (vs : List Int32) (s : State) : Prop where
  sp : s.sp = base.sp - vs.length * w
  words : ∀ (j : Nat) v, vs[j]? = some v → s.memory.read (s.sp + j * w) = v
  above : ∀ a, base.sp ≤ a → s.memory.read a = base.memory.read a
  fp : s.fp = base.fp
  callDepths : s.callDepths = base.callDepths

namespace Stacked

variable {w : Int} {base s : State} {v : Int32} {vs : List Int32}

theorem length_cons_mul (w : Int) (v : Int32) (vs : List Int32) :
    ((v :: vs).length : Int) * w = vs.length * w + w := by
  rw [List.length_cons, Int.natCast_add, Int.add_mul, Int.natCast_one, Int.one_mul]

theorem refl (s : State) : Stacked w s [] s where
  sp := by simp
  words := nofun
  above _ _ := rfl
  fp := rfl
  callDepths := rfl

theorem goto (h : Stacked w base vs s) (n : Nat) : Stacked w base vs (s.goto n) :=
  ⟨h.sp, h.words, h.above, h.fp, h.callDepths⟩

theorem print (h : Stacked w base vs s) (text : String) : Stacked w base vs (s.print text) :=
  ⟨h.sp, h.words, h.above, h.fp, h.callDepths⟩

theorem top (h : Stacked w base (v :: vs) s) : s.memory.read s.sp = v := by
  simpa using h.words 0 v rfl

theorem sp_le (hw : 0 < w) (h : Stacked w base vs s) : s.sp ≤ base.sp := by
  have : 0 ≤ vs.length * w := Int.mul_nonneg (Int.natCast_nonneg _) (Int.le_of_lt hw)
  have := h.sp
  omega

theorem sp_lt (hw : 0 < w) (h : Stacked w base (v :: vs) s) : s.sp < base.sp := by
  have := length_cons_mul w v vs
  have : 0 ≤ vs.length * w := Int.mul_nonneg (Int.natCast_nonneg _) (Int.le_of_lt hw)
  have := h.sp
  omega

theorem drop (h : Stacked w base (v :: vs) s) : Stacked w base vs (s.drop w) where
  sp := by
    have := length_cons_mul w v vs
    have := h.sp
    simp only [State.sp_drop]
    omega
  words j u hj := by
    have hword := h.words (j + 1) u hj
    rw [Int.natCast_add, Int.add_mul, Int.natCast_one, Int.one_mul] at hword
    rw [State.memory_drop, State.sp_drop, Int.add_assoc, Int.add_comm w]
    exact hword
  above := h.above
  fp := h.fp
  callDepths := h.callDepths

theorem push (hw : 0 < w) (h : Stacked w base vs s) (v : Int32) :
    Stacked w base (v :: vs) (s.push w v) where
  sp := by
    rw [State.sp_push, h.sp, length_cons_mul]
    omega
  words j u hj := by
    rw [State.memory_push, State.sp_push]
    cases j with
    | zero =>
      cases hj
      simp
    | succ j =>
      have hword := h.words j u hj
      have hpos : 0 ≤ (j : Int) * w := Int.mul_nonneg (Int.natCast_nonneg _) (Int.le_of_lt hw)
      rw [Int.natCast_add, Int.add_mul, Int.natCast_one, Int.one_mul,
        Memory.read_write_of_ne _ (by omega)]
      rw [← hword]
      congr 1
      omega
  above a ha := by
    have := h.sp_le hw
    rw [State.memory_push, Memory.read_write_of_ne _ (by omega)]
    exact h.above a ha
  fp := h.fp
  callDepths := h.callDepths

/-- A word below the stack may change. -/
theorem store (hw : 0 < w) (h : Stacked w base vs s) {a : Int} (ha : a < s.sp) (v : Int32) :
    Stacked w base vs (s.store a v) where
  sp := h.sp
  words j u hj := by
    have hpos : 0 ≤ (j : Int) * w := Int.mul_nonneg (Int.natCast_nonneg _) (Int.le_of_lt hw)
    rw [State.memory_store, State.sp_store, Memory.read_write_of_ne _ (by omega)]
    exact h.words j u hj
  above b hb := by
    have := h.sp_le hw
    rw [State.memory_store, Memory.read_write_of_ne _ (by omega)]
    exact h.above b hb
  fp := h.fp
  callDepths := h.callDepths

end Stacked

end Machine

end Lpl
