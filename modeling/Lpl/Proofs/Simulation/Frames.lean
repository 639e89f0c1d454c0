import Lpl.Proofs.Simulation.Expr

/-!
# Frames between statements

Between statements there are no temporary words on the stack. In a method the stack then ends with the
locals, below the linkage words and the parameters, and above these is the stack of the caller: it
stays as it was when the call was made. `Opened` says so of a state, and `Returned` says what a `ret`
makes of it.
-/

namespace Lpl

open Machine

/-! ## Places of a method's variables -/

/-- A variable of a method is a local, below the frame pointer, or a parameter above the linkage
words. -/
theorem inMethod?_cases {m : Signature} {x : String} {v : Variable} (w : Nat)
    (h : Scope.inMethod? m x = some v) :
    (∃ i ty, Scope.slot? x m.locals = some (i, ty) ∧ i < m.locals.length ∧
      v.place.displacement w = -((i + 1 : Nat) * w : Int)) ∨
    (∃ i ty, Scope.slot? x m.locals = none ∧ Scope.slot? x m.params = some (i, ty) ∧
      i < m.params.length ∧ v.place.displacement w = ((i + 2 : Nat) * w : Int)) := by
  unfold Scope.inMethod? at h
  split at h
  · next i ty hlocal =>
    cases h
    exact .inl ⟨i, ty, hlocal, slot?_lt hlocal, by simp [Place.displacement]⟩
  · next i ty hlocal hparam =>
    cases h
    exact .inr ⟨i, ty, hlocal, hparam, slot?_lt hparam, by
      simp [Place.displacement, linkageWords]⟩
  · cases h

/-- Distinct variables of a method have distinct places. -/
theorem displacement_ne {m : Signature} {x y : String} {u v : Variable} {w : Nat} (hw : 0 < w)
    (hx : Scope.inMethod? m x = some u) (hy : Scope.inMethod? m y = some v) (hxy : x ≠ y) :
    u.place.displacement w ≠ v.place.displacement w := by
  have hpos : ∀ i j : Nat, i ≠ j → (i : Int) * w ≠ j * w := fun i j hij h =>
    hij (by exact_mod_cast Int.eq_of_mul_eq_mul_right (by omega) h)
  have hnonneg : ∀ i : Nat, 0 < i → 0 < (i : Int) * w := fun i hi =>
    Int.mul_pos (by omega) (by omega)
  rcases inMethod?_cases w hx with ⟨i, _, hi, -, hu⟩ | ⟨i, _, -, hi, -, hu⟩ <;>
    rcases inMethod?_cases w hy with ⟨j, _, hj, -, hv⟩ | ⟨j, _, -, hj, -, hv⟩ <;>
    rw [hu, hv]
  · have hij : i ≠ j := by
      rintro rfl
      exact hxy (slot?_inj hi hj)
    have := hpos (i + 1) (j + 1) (by omega)
    omega
  · have := hnonneg (i + 1) (by omega)
    have := hnonneg (j + 2) (by omega)
    omega
  · have := hnonneg (i + 2) (by omega)
    have := hnonneg (j + 1) (by omega)
    omega
  · have hij : i ≠ j := by
      rintro rfl
      exact hxy (slot?_inj hi hj)
    exact hpos (i + 2) (j + 2) (by omega)

theorem global_displacement_ne {t : Table} {x y : String} {u v : Variable} (hw : 0 < t.wordSize)
    (hx : Scope.global? t x = some u) (hy : Scope.global? t y = some v) (hxy : x ≠ y) :
    u.place.displacement t.wordSize ≠ v.place.displacement t.wordSize := by
  obtain ⟨⟨i, _⟩, hi, rfl⟩ := Option.map_eq_some_iff.1 hx
  obtain ⟨⟨j, _⟩, hj, rfl⟩ := Option.map_eq_some_iff.1 hy
  intro h
  have hmul : i * t.wordSize = j * t.wordSize := Int.ofNat.inj h
  obtain rfl := Nat.eq_of_mul_eq_mul_right hw hmul
  exact hxy (slot?_inj hi hj)

/-- Variables are between the end of the locals and the stack of the caller, and none of them is a
linkage word. -/
theorem displacement_bounds {m : Signature} {x : String} {v : Variable} {w : Nat} (hw : 0 < w)
    (h : Scope.inMethod? m x = some v) :
    -(m.locals.length * w : Int) ≤ v.place.displacement w ∧
      v.place.displacement w < (m.params.length + 2 : Nat) * w ∧
      v.place.displacement w ≠ 0 ∧ v.place.displacement w ≠ w := by
  have hw' : (0 : Int) < w := by omega
  have hmono : ∀ i j : Nat, i ≤ j → (i : Int) * w ≤ j * w := fun i j hij =>
    Int.mul_le_mul_of_nonneg_right (by omega) (by omega)
  have hzero : (1 : Nat) * (w : Int) = w := by simp
  rcases inMethod?_cases w h with ⟨i, _, -, hi, hδ⟩ | ⟨i, _, -, -, hi, hδ⟩
  · have := hmono 1 (i + 1) (by omega)
    have := hmono (i + 1) m.locals.length (by omega)
    have := hmono 0 (m.params.length + 2) (by omega)
    omega
  · have hstrict : ((i + 2 : Nat) : Int) * w < (m.params.length + 2 : Nat) * w :=
      Int.mul_lt_mul_of_pos_right (by omega) hw'
    have htwo : ((2 : Nat) : Int) * w = w + w := by omega
    have := hmono 2 (i + 2) (by omega)
    have := hmono 0 m.locals.length (by omega)
    omega

/-! ## Open calls -/

/-- What is to be restored when a call returns: the line to go on at, the frame pointer, the open
calls, and the memory from the address `top` on, which is the stack before the arguments. -/
structure Caller where
  back : Nat
  fp : Int
  depths : List Int
  top : Int
  memory : Memory

/-- The frame of the state is that of a call with `n` parameters: the linkage words, and all above the
parameters, belong to the caller. -/
structure Linkage (w n : Nat) (c : Caller) (s : State) : Prop where
  top_eq : s.fp + (n + 2 : Nat) * w = c.top
  fp_eq : (s.memory.read s.fp).toInt = c.fp
  back_eq : unsigned (s.memory.read (s.fp + w)).toInt = c.back
  depths_eq : s.callDepths = (stackTop - c.top).tdiv w :: c.depths
  above : ∀ a, c.top ≤ a → s.memory.read a = c.memory.read a
  top_le : c.top ≤ stackTop

/-- The state is at statement level in a call of `m`, with words of `w` bytes. -/
structure Opened (w : Nat) (m : Signature) (c : Caller) (s : State) : Prop extends
    Linkage w m.params.length c s where
  sp_eq : s.sp + m.locals.length * w = s.fp

theorem Linkage.fp_le {w n : Nat} {c : Caller} {s : State} (h : Linkage w n c s) :
    s.fp + w ≤ c.top := by
  have hmul : (1 : Nat) * (w : Int) ≤ (n + 2 : Nat) * w :=
    Int.mul_le_mul_of_nonneg_right (by omega) (by omega)
  have hone : ((1 : Nat) : Int) * w = w := by simp
  have := h.top_eq
  omega

/-- A frame does not change with what is below it. -/
theorem Linkage.of_above {w n : Nat} {c : Caller} {s s' : State} (h : Linkage w n c s)
    (hfp : s'.fp = s.fp) (hdepths : s'.callDepths = s.callDepths)
    (hmem : ∀ a, s.fp ≤ a → s'.memory.read a = s.memory.read a) : Linkage w n c s' := by
  have hle := h.fp_le
  refine ⟨?_, ?_, ?_, ?_, fun a ha => ?_, h.top_le⟩
  · rw [hfp]
    exact h.top_eq
  · rw [hfp, hmem _ (by omega)]
    exact h.fp_eq
  · rw [hfp, hmem _ (by omega)]
    exact h.back_eq
  · rw [hdepths]
    exact h.depths_eq
  · rw [hmem a (by omega)]
    exact h.above a ha

/-- Parameters and what is below the frame may change. -/
theorem Linkage.store {w n : Nat} {c : Caller} {s : State} (h : Linkage w n c s) {a : Int}
    (ha : a < c.top) (hfp : a ≠ s.fp) (hback : a ≠ s.fp + w) (v : Int32) :
    Linkage w n c (s.store a v) := by
  refine ⟨h.top_eq, ?_, ?_, h.depths_eq, fun b hb => ?_, h.top_le⟩
  · rw [State.memory_store, State.fp_store, Memory.read_write_of_ne _ hfp]
    exact h.fp_eq
  · rw [State.memory_store, State.fp_store, Memory.read_write_of_ne _ hback]
    exact h.back_eq
  · rw [State.memory_store, Memory.read_write_of_ne _ (by omega)]
    exact h.above b hb

/-- The state is at statement level: outside all methods the stack is empty. -/
def Settled (σ : Scope) (c : Caller) (s : State) : Prop :=
  match σ.active with
  | none => s.sp = stackTop ∧ s.fp = stackTop
  | some m => Opened σ.table.wordSize m c s

theorem Settled.bounds {σ : Scope} {c : Caller} {s : State} (h : Settled σ c s) :
    s.sp ≤ s.fp ∧ s.fp ≤ stackTop := by
  unfold Settled at h
  split at h
  · omega
  · next m _ =>
    have hlocals : (0 : Int) ≤ m.locals.length * σ.table.wordSize := by
      exact_mod_cast Nat.zero_le _
    have := h.sp_eq
    have := h.fp_le
    have := h.top_le
    omega

/-- Nothing that matters at statement level has changed. -/
theorem Settled.of_above {σ : Scope} {c : Caller} {s s' : State} (h : Settled σ c s)
    (hsp : s'.sp = s.sp) (hfp : s'.fp = s.fp) (hdepths : s'.callDepths = s.callDepths)
    (hmem : ∀ a, s.sp ≤ a → s'.memory.read a = s.memory.read a) : Settled σ c s' := by
  have hbounds := h.bounds
  unfold Settled at h ⊢
  split at h
  · exact ⟨hsp.trans h.1, hfp.trans h.2⟩
  · refine ⟨h.toLinkage.of_above hfp hdepths fun a ha => hmem a (by omega), ?_⟩
    rw [hsp, hfp]
    exact h.sp_eq

/-- The variables are the words at or above the stack pointer. -/
theorem Sees.of_above {σ : Scope} {f : Bindings} {s s' : State} (h : Sees σ f s)
    (hsp : s'.sp = s.sp) (hfp : s'.fp = s.fp)
    (hmem : ∀ a, s.sp ≤ a → s'.memory.read a = s.memory.read a) : Sees σ f s' where
  slots x := by
    rw [h.slots x, hfp]
    cases hm : σ.active with
    | none => rfl
    | some m =>
      rw [Option.bind_some]
      cases hv : Scope.inMethod? m x with
      | none => rfl
      | some v => exact congrArg some (hmem _ (h.inStack hm hv).1).symm
  inStack hm hv := by
    rw [hsp, hfp]
    exact h.inStack hm hv

/-! ## Between statements -/

/-- At line `k` between statements, with the variables `f`, in the world `w`. -/
structure Between (σ : Scope) (c : Caller) (f : Bindings) (k : Nat) (w : World) (s : State) :
    Prop where
  pc : s.pc = k
  sees : Sees σ f s
  settled : Settled σ c s
  shows : Shows σ.table w s

namespace Between

variable {σ : Scope} {code : Assembly} {img : Image} {d : Int} {c : Caller} {f : Bindings}
  {k k' n : Nat} {w w' : World} {s s' : State}

/-- Expressions start from here. -/
theorem base (h : Between σ c f k w s) : At σ.table s k [] w s :=
  ⟨h.pc, .refl s, h.shows, h.settled.bounds.1, h.settled.bounds.2⟩

/-- When no temporary words are left, the next statement starts. -/
theorem of_at (h : Between σ c f k w s) (h' : At σ.table s k' [] w' s') :
    Between σ c f k' w' s' := by
  have hsp : s'.sp = s.sp := by simpa using h'.stacked.sp
  exact ⟨h'.pc, h.sees.of_above hsp h'.stacked.fp h'.stacked.above,
    h.settled.of_above hsp h'.stacked.fp h'.stacked.callDepths h'.stacked.above, h'.shows⟩

variable (L : Linked σ.table code img d)

include L

theorem line_label {l : String} (hi : code[k]? = some (.label l)) (h : Between σ c f k w s) :
    Leads img d (Between σ c f (k + 1) w) s :=
  (h.base.line_label L hi).trans fun _ h' => .here (h.of_at h')

theorem line_jump {l : String} (hi : code[k]? = some (.jump l)) (hl : code[n]? = some (.label l))
    (h : Between σ c f k w s) : Leads img d (Between σ c f n w) s :=
  (h.base.line_jump L hi hl).trans fun _ h' => .here (h.of_at h')

theorem wordSize_pos : 0 < σ.table.wordSize := by
  have := L.wordSize_pos
  omega

/-- Assigning to a variable of the method. -/
theorem store_slot (h : Between σ c f k w s) (hd : d ≤ s.sp) {m : Signature} {x : String}
    {v : Variable} (hm : σ.active = some m) (hv : Scope.inMethod? m x = some v) (u : Int32) (n : Nat) :
    Between σ c (f.set x u) n w
      ((s.store (s.fp + v.place.displacement σ.table.wordSize) u).goto n) where
  pc := rfl
  sees := by
    refine ⟨fun y => ?_, fun hm' hv' => h.sees.inStack hm' hv'⟩
    have hslot := h.sees.slots y
    rw [hm, Option.bind_some] at hslot ⊢
    rw [Bindings.lookup_set]
    cases hy : Scope.inMethod? m y with
    | none =>
      rw [hy, Option.map_none] at hslot
      simp [hslot]
    | some v' =>
      rw [hy, Option.map_some] at hslot
      rw [hslot, Option.map_some, Option.map_some]
      by_cases hyx : y = x
      · subst hyx
        rw [if_pos rfl]
        cases hv.symm.trans hy
        simp
      · have hne := displacement_ne (wordSize_pos L) hv hy (Ne.symm hyx)
        rw [if_neg hyx]
        simp only [State.memory_goto, State.memory_store, State.fp_goto, State.fp_store]
        rw [Memory.read_write_of_ne _ (by omega)]
  settled := by
    have hset := h.settled
    unfold Settled at hset ⊢
    rw [hm] at hset ⊢
    obtain ⟨-, hlt, hne, hne'⟩ := displacement_bounds (wordSize_pos L) hv
    have htop := hset.top_eq
    have hlink := hset.toLinkage.store (a := s.fp + v.place.displacement σ.table.wordSize)
      (by omega) (by omega) (by omega) u
    exact ⟨hlink.of_above rfl rfl fun _ _ => rfl, hset.sp_eq⟩
  shows := by
    refine h.shows.of_data L rfl fun a ha => ?_
    have := (h.sees.inStack hm hv).1
    have := L.globals_le
    exact Memory.read_write_of_ne _ (by omega) u

/-- Assigning to a global. -/
theorem store_global (h : Between σ c f k w s) (hd : d ≤ s.sp) {x : String} {v : Variable}
    (hv : Scope.global? σ.table x = some v) (u : Int32) (n : Nat) :
    Between σ c f n { w with globals := w.globals.set x u }
      ((s.store (v.place.displacement σ.table.wordSize) u).goto n) := by
  have hlt := (L.global_lt hv).2
  have hle := L.globals_le
  have habove : ∀ a, s.sp ≤ a →
      (s.memory.write (v.place.displacement σ.table.wordSize) u).read a = s.memory.read a :=
    fun a ha => Memory.read_write_of_ne _ (by omega) u
  refine ⟨rfl, h.sees.of_above rfl rfl habove, h.settled.of_above rfl rfl rfl habove,
    h.shows.output, fun y => ?_⟩
  have hglobal := h.shows.globals y
  show (w.globals.set x u).lookup y = _
  rw [Bindings.lookup_set]
  cases hy : Scope.global? σ.table y with
  | none =>
    rw [hy, Option.map_none] at hglobal
    simp [hglobal]
  | some v' =>
    rw [hy, Option.map_some] at hglobal
    rw [hglobal, Option.map_some, Option.map_some]
    by_cases hyx : y = x
    · subst hyx
      rw [if_pos rfl]
      cases hv.symm.trans hy
      simp
    · have hne := global_displacement_ne (wordSize_pos L) hv hy (Ne.symm hyx)
      rw [if_neg hyx]
      simp only [State.memory_goto, State.memory_store]
      rw [Memory.read_write_of_ne _ hne]

end Between

/-! ## Returning -/

/-- The call of `c` has returned `v`, which is on the stack of the caller now. -/
structure Returned (t : Table) (c : Caller) (v : Int32) (w : World) (s : State) : Prop where
  pc : s.pc = c.back
  sp : s.sp = c.top - t.wordSize
  value : s.memory.read s.sp = v
  fp : s.fp = c.fp
  callDepths : s.callDepths = c.depths
  above : ∀ a, c.top ≤ a → s.memory.read a = c.memory.read a
  shows : Shows t w s

/-- The machine goes on behind the call of `c`, with the value `v` on the stack of the caller. -/
structure Back (w : Nat) (c : Caller) (v : Int32) (s : State) : Prop where
  pc : s.pc = c.back
  sp : s.sp = c.top - w
  value : s.memory.read s.sp = v
  fp : s.fp = c.fp
  callDepths : s.callDepths = c.depths
  above : ∀ a, c.top ≤ a → s.memory.read a = c.memory.read a

/-- The depth of a stack with `n` more words. -/
theorem tdiv_add_mul {x w : Int} (hx : 0 ≤ x) (hw : 0 < w) (n : Nat) :
    (x + n * w).tdiv w = x.tdiv w + n := by
  have hn : 0 ≤ n * w := Int.mul_nonneg (Int.natCast_nonneg n) (Int.le_of_lt hw)
  rw [Int.tdiv_eq_ediv_of_nonneg (by omega), Int.tdiv_eq_ediv_of_nonneg hx,
    Int.add_mul_ediv_right _ _ (by omega)]

/-- Giving up the frame brings the stack back to where it was before the arguments. -/
theorem Opened.sp_add {w : Nat} {m : Signature} {c : Caller} {s : State} (h : Opened w m c s) :
    s.sp + ((m.frameSize : Int) + 2) * w = c.top := by
  have hsum : ((m.frameSize : Int) + 2) * w =
      m.locals.length * w + (m.params.length + 2 : Nat) * w := by
    rw [← Int.add_mul]
    congr 1
    unfold Signature.frameSize
    omega
  have := h.top_eq
  have := h.sp_eq
  omega

/-- A frame without temporary words is as it was. -/
theorem Opened.of_at {t : Table} {m : Signature} {c : Caller} {base r : State} {k : Nat} {w : World}
    (h : Opened t.wordSize m c base) (hr : At t base k [] w r) : Opened t.wordSize m c r := by
  have hsp : r.sp = base.sp := by simpa using hr.stacked.sp
  have hbase := hr.sp_le
  refine ⟨h.toLinkage.of_above hr.stacked.fp hr.stacked.callDepths fun a ha =>
    hr.stacked.above a (by omega), ?_⟩
  rw [hsp, hr.stacked.fp]
  exact h.sp_eq

section Returning

variable {t : Table} {code : Assembly} {img : Image} {d : Int} {m : Signature} {c : Caller}
  {base s r : State} {k : Nat} {v : Int32} {w : World} (L : Linked t code img d)

include L

theorem Opened.frameSize_toInt (h : Opened t.wordSize m c base) (hd : d ≤ base.sp) :
    (Int32.ofNat m.frameSize).toInt = m.frameSize := by
  have hwords : ((m.frameSize : Int) + 2) * 1 ≤ (m.frameSize + 2) * t.wordSize :=
    Int.mul_le_mul_of_nonneg_left L.wordSize_pos (by omega)
  have htop : stackTop = 1048576 := rfl
  have := h.sp_add
  have := h.top_le
  have := L.data_nonneg
  exact Int32.toInt_ofNat_of_lt (by omega)

/-- What is left when the frame is given up. -/
theorem Opened.back (h : Opened t.wordSize m c s) (hd : d ≤ s.sp) :
    Back t.wordSize c v ((s.leave t.wordSize (.ofNat m.frameSize) v).close.goto
      (unsigned (s.memory.read (s.fp + t.wordSize)).toInt)) := by
  have hw := L.wordSize_pos
  have htop : s.sp + ((Int32.ofNat m.frameSize).toInt + 2) * t.wordSize = c.top := by
    rw [h.frameSize_toInt L hd]
    exact h.sp_add
  refine ⟨h.back_eq, ?_, by simp, h.fp_eq, ?_, fun a ha => ?_⟩
  · rw [State.sp_goto, State.sp_close, State.sp_leave, htop]
  · rw [State.callDepths_goto, State.callDepths_close, State.callDepths_leave, h.depths_eq,
      List.tail_cons]
  · rw [State.memory_goto, State.memory_close, State.memory_leave, htop,
      Memory.read_write_of_ne _ (by omega)]
    exact h.above a ha

/-- The stack is one word higher then than before the arguments. -/
theorem Opened.depth_leave (h : Opened t.wordSize m c s) (hd : d ≤ s.sp) :
    (s.leave t.wordSize (.ofNat m.frameSize) v).depth t.wordSize =
      (stackTop - c.top).tdiv t.wordSize + 1 := by
  have hsp : (s.leave t.wordSize (.ofNat m.frameSize) v).sp = c.top - t.wordSize :=
    (h.back (v := v) L hd).sp
  have htop := h.top_le
  rw [State.depth, hsp, ← Int.natCast_one, ← tdiv_add_mul (by omega) L.wordSize_pos 1]
  congr 1
  omega

/-- What is left when the frame is given up, where `r` has no temporary words. -/
theorem Opened.leave (h : Opened t.wordSize m c base) (hr : At t base k [] w r) (hd : d ≤ base.sp) :
    Returned t c v w ((r.leave t.wordSize (.ofNat m.frameSize) v).close.goto
      (unsigned (r.memory.read (r.fp + t.wordSize)).toInt)) := by
  have hsp : r.sp = base.sp := by simpa using hr.stacked.sp
  have hback := (h.of_at hr).back (v := v) L (by omega)
  refine ⟨hback.pc, hback.sp, hback.value, hback.fp, hback.callDepths, hback.above, ?_⟩
  have haddress : r.sp + ((Int32.ofNat m.frameSize).toInt + 2) * t.wordSize - t.wordSize =
      c.top - t.wordSize := hback.sp
  have hlow : base.sp + t.wordSize ≤ c.top - t.wordSize := by
    have hwords : (0 : Int) ≤ m.frameSize * t.wordSize := by exact_mod_cast Nat.zero_le _
    have htop := h.sp_add
    rw [Int.add_mul] at htop
    omega
  refine hr.shows.of_data L rfl fun a ha => ?_
  have := L.globals_le
  rw [State.memory_goto, State.memory_close, State.memory_leave, haddress]
  exact Memory.read_write_of_ne _ (by omega) v

theorem At.line_ret (hi : code[k]? = some .ret) (hopen : Opened t.wordSize m c base)
    (h : At t base k [.ofNat m.frameSize, v] w s) : Leads img d (Returned t c v w) s := by
  intro hsafe
  have hd := hsafe.le
  have hle := h.stacked.sp_le L.wordSize_pos
  have hlt : s.sp + img.wordSize < stackTop := by
    rw [L.wordSize]
    exact h.drop.sp_lt L
  have hvalue : s.memory.read (s.sp + img.wordSize) = v := by
    rw [L.wordSize]
    exact h.drop.stacked.top
  have hleft := hopen.leave (v := v) L h.drop.drop (by omega)
  have hdepth : (((s.drop img.wordSize).drop img.wordSize).leave img.wordSize (s.memory.read s.sp)
      (s.memory.read (s.sp + img.wordSize))).depth img.wordSize =
      (stackTop - c.top).tdiv t.wordSize + 1 := by
    rw [h.stacked.top, hvalue, L.wordSize]
    have hsp : ((s.drop t.wordSize).drop t.wordSize).sp = base.sp := by
      simpa using h.drop.drop.stacked.sp
    exact (hopen.of_at h.drop.drop).depth_leave L (by omega)
  have hstep := step_ret (h.sp_lt L) hlt (h.code_eq L hi)
    (h.stacked.callDepths.trans hopen.depths_eq) hdepth
  rw [h.stacked.top, hvalue, L.wordSize] at hstep
  exact ⟨_, .single hstep, hleft⟩

end Returning

end Lpl
