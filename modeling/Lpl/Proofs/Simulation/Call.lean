import Lpl.Proofs.Simulation.Stmt

/-!
# Simulation of calls

**Theorem (`callsSimulate`).** The code of a call does what the interpreter does when it calls the
method: `calli` opens a frame for the arguments on the stack, the method's code adds its locals, the
body runs in the frame, and a `ret` brings the caller's stack back with the value on top.

The induction is on how deep calls may go: the calls in the body of a method go less deep.
-/

namespace Lpl

open Machine

/-! ## Entering a method -/

section Entering

variable {t : Table} {code : Assembly} {img : Image} {d : Int} {base r s : State} {k n : Nat}
  {args vs : List Int32} {w : World} (L : Linked t code img d)

/-- The caller of a call whose arguments are on the stack of `r`, above the words `vs` on the stack
of `base`. -/
def callerOf (t : Table) (base r : State) (vs : List Int32) (back : Nat) : Caller where
  back := back
  fp := base.fp
  depths := base.callDepths
  top := base.sp - vs.length * t.wordSize
  memory := r.memory

theorem top_callerOf (back : Nat) :
    (callerOf t base r vs back).top = base.sp - vs.length * t.wordSize := rfl

theorem unsigned_ofNat {n : Nat} (h : n < 2147483648) : unsigned (Int32.ofNat n).toInt = n := by
  rw [Int32.toInt_ofNat_of_lt h, unsigned]
  omega

/-- A new frame: the linkage words are below the arguments, and above these is the stack of the
caller. -/
theorem linkage_of_enter {b j : Nat} (hw : (0 : Int) < b) (hlow : 0 ≤ r.sp - b - b)
    (hhigh : r.sp + j * b ≤ stackTop) (hfp : 0 ≤ r.fp ∧ r.fp ≤ stackTop) {back : Nat}
    (hback : back < 2147483648) :
    Linkage b j ⟨back, r.fp, r.callDepths, r.sp + j * b, r.memory⟩
      ((r.enter b (.ofNat j) back).goto n) := by
  have hargs : (j : Int) * 1 ≤ j * b := Int.mul_le_mul_of_nonneg_left hw (by omega)
  have hstackTop : stackTop = 1048576 := rfl
  have htwo : ((j + 2 : Nat) : Int) * b = j * b + b + b := by
    rw [Int.natCast_add, Int.add_mul]
    omega
  refine ⟨?_, ?_, ?_, ?_, fun a ha => ?_, hhigh⟩
  · show r.sp - b - b + (j + 2 : Nat) * b = r.sp + j * b
    rw [htwo]
    omega
  · rw [State.memory_goto, State.fp_goto, State.fp_enter, State.memory_enter,
      Memory.read_write_self, toInt_ofInt_of_inStack hfp.1 hfp.2]
  · have haddress : r.sp - b - b + b = r.sp - b := by omega
    rw [State.memory_goto, State.fp_goto, State.fp_enter, State.memory_enter, haddress,
      Memory.read_write_of_ne _ (by omega), Memory.read_write_self, unsigned_ofNat hback]
  · have hdepth : stackTop - r.sp = stackTop - (r.sp + j * b) + j * b := by omega
    rw [State.callDepths_goto, State.callDepths_enter, State.depth, hdepth,
      tdiv_add_mul (by omega) hw, Int32.toInt_ofNat_of_lt (by omega), Int.add_sub_cancel]
  · have ha : r.sp + j * b ≤ a := ha
    rw [State.memory_goto, State.memory_enter, Memory.read_write_of_ne _ (by omega),
      Memory.read_write_of_ne _ (by omega)]

theorem At.sp_add_args (h : At t base k (args ++ vs) w r) :
    r.sp + args.length * t.wordSize = base.sp - vs.length * t.wordSize := by
  have hsp := h.stacked.sp
  rw [List.length_append, Int.natCast_add, Int.add_mul] at hsp
  omega

include L

theorem linkage_enter (h : At t base k (args ++ vs) w r)
    (hd : d ≤ r.sp - t.wordSize - t.wordSize) {back : Nat} (hback : back < 2147483648) :
    Linkage t.wordSize args.length (callerOf t base r vs back)
      ((r.enter t.wordSize (.ofNat args.length) back).goto n) := by
  have hnonneg := L.data_nonneg
  have hle := h.stacked.sp_le L.wordSize_pos
  have hfp := h.sp_le
  have htop := h.fp_le
  have hwords : (0 : Int) ≤ vs.length * t.wordSize := by exact_mod_cast Nat.zero_le _
  have hcaller : callerOf t base r vs back =
      ⟨back, r.fp, r.callDepths, r.sp + args.length * t.wordSize, r.memory⟩ := by
    rw [callerOf, h.stacked.fp, h.stacked.callDepths, h.sp_add_args]
  have hargs := h.sp_add_args
  rw [hcaller]
  refine linkage_of_enter L.wordSize_pos (by omega) (by omega) ⟨?_, ?_⟩ hback
  · have := h.stacked.fp
    omega
  · rw [h.stacked.fp]
    exact htop

end Entering

/-! ## The variables of a call -/

theorem lookup_locals (x : String) (ds : List Decl) :
    (ds.map fun d => (d.name, (0 : Int32))).lookup x = (Scope.slot? x ds).map fun _ => 0 := by
  induction ds with
  | nil => rfl
  | cons d ds ih =>
    rw [List.map_cons, List.lookup_cons, Scope.slot?]
    by_cases hx : d.name = x
    · simp [hx]
    · have hne : (x == d.name) = false := by simpa using Ne.symm hx
      rw [hne, if_neg hx, ih, Option.map_map]
      rfl

theorem lookup_params (x : String) (ds : List Decl) (args : List Int32) :
    ((ds.map Decl.name).zip args).lookup x = (Scope.slot? x ds).bind fun p => args[p.1]? := by
  induction ds generalizing args with
  | nil => rfl
  | cons d ds ih =>
    rw [Scope.slot?]
    cases args with
    | nil => simp
    | cons a args =>
      rw [List.map_cons, List.zip_cons_cons, List.lookup_cons]
      by_cases hx : d.name = x
      · simp [hx]
      · have hne : (x == d.name) = false := by simpa using Ne.symm hx
        rw [hne, if_neg hx, ih, Option.bind_map]
        rfl

/-- The words of a new frame are the arguments and zeros for the locals. -/
theorem sees_frame {t : Table} {m : Signature} {c : Caller} {args : List Int32} {s₂ s₃ : State}
    {k : Nat} {w : World} (hw : 0 < t.wordSize) (hlength : args.length = m.params.length)
    (hlink : Linkage t.wordSize m.params.length c s₂) (hsp : s₂.sp = s₂.fp)
    (hargs : ∀ (i : Nat) v, args[i]? = some v →
      s₂.memory.read (s₂.fp + (i + 2 : Nat) * t.wordSize) = v)
    (h : At t s₂ k (List.replicate m.locals.length 0) w s₃) :
    Sees ⟨t, some m⟩ (m.frame args) s₃ := by
  have hsp₃ : s₃.sp = s₂.fp - m.locals.length * t.wordSize := by
    have := h.stacked.sp
    rwa [List.length_replicate, hsp] at this
  refine ⟨fun x => ?_, fun {m' x v} hm hv => ?_⟩
  · show (m.frame args).lookup x = (Scope.inMethod? m x).map fun v =>
      s₃.memory.read (s₃.fp + v.place.displacement t.wordSize)
    rw [Signature.frame, List.lookup_append, lookup_locals, lookup_params]
    cases hv : Scope.inMethod? m x with
    | none =>
      unfold Scope.inMethod? at hv
      split at hv <;> simp_all
    | some v =>
      rw [Option.map_some, h.stacked.fp]
      rcases inMethod?_cases t.wordSize hv with ⟨i, _, hi, hlt, hδ⟩ | ⟨i, _, hnone, hi, hlt, hδ⟩
      · have hzero := h.stacked.words (m.locals.length - 1 - i) 0 (by
          rw [List.getElem?_replicate, if_pos (by omega)])
        have haddress : s₃.sp + (m.locals.length - 1 - i : Nat) * t.wordSize =
            s₂.fp + -((i + 1 : Nat) * t.wordSize) := by
          have hsum : (m.locals.length : Int) * t.wordSize =
              (m.locals.length - 1 - i : Nat) * t.wordSize + (i + 1 : Nat) * t.wordSize := by
            rw [← Int.add_mul]
            congr 1
            omega
          omega
        rw [haddress] at hzero
        rw [hi, hδ, hzero]
        rfl
      · obtain ⟨a, ha⟩ : ∃ a, args[i]? = some a := ⟨args[i], List.getElem?_eq_getElem (by omega)⟩
        have hnonneg : (0 : Int) ≤ (i + 2 : Nat) * t.wordSize := by exact_mod_cast Nat.zero_le _
        rw [hnone, hi, hδ, h.stacked.above _ (by omega), hargs i a ha]
        exact ha
  · cases hm
    obtain ⟨hlow, hhigh, -⟩ := displacement_bounds hw hv
    have htop := hlink.top_eq
    have hle := hlink.top_le
    rw [h.stacked.fp]
    show s₃.sp ≤ s₂.fp + v.place.displacement t.wordSize ∧
      s₂.fp + v.place.displacement t.wordSize ≤ stackTop
    omega

/-! ## Calls -/

/-- The code of every method of the program is in the code, behind its label, and its body is one that
the interpreter knows to run. -/
def MethodsLinked (p : Program) (t : Table) (code : Assembly) : Prop :=
  ∀ {g m}, t.method? g = some m → ∃ (m' : Method) (k : Nat) (B : Assembly) (ls ls' : Labels),
    p.methods.find? (fun m => m.name = g) = some m' ∧ m'.toSignature = m ∧
    code.HasAt k (methodCode g m B) ∧ Emits (Stmt.codeAll ⟨t, some m⟩ m'.body) ls () B ls' ∧
    Stmt.allArrayFree m'.body ∧ ArgsMatch t (Stmt.callsAll m'.body)

section Calls

variable {p : Program} {t : Table} {code : Assembly} {img : Image} {d : Int} {base r s : State}
  {k n : Nat} {v : Int32} {args vs : List Int32} {w w' : World} (L : Linked t code img d)

include L

/-- Locals start at 0. -/
theorem At.locals (j : Nat) (hcode : code.HasAt k (List.replicate j (.push 0)))
    (h : At t base k vs w s) :
    Leads img d (At t base (k + j) (List.replicate j 0 ++ vs) w) s := by
  induction j generalizing k vs s with
  | zero => exact .here h
  | succ j ih =>
    rw [List.replicate_succ] at hcode
    refine (h.line_push L hcode.head).trans fun s' h' => ?_
    have hrest := ih hcode.tail h'
    rw [List.append_cons, ← List.replicate_succ', Nat.add_assoc, Nat.add_comm 1] at hrest
    exact hrest

/-- Behind a call the value is in the place of the arguments. -/
theorem Returned.at {back : Nat} (hr : At t base k (args ++ vs) w r)
    (h : Returned t (callerOf t base r vs back) v w' s) : At t base back (v :: vs) w' s := by
  have hw := L.wordSize_pos
  have hsp := h.sp
  rw [top_callerOf] at hsp
  have habove : ∀ a, base.sp - vs.length * t.wordSize ≤ a → s.memory.read a = r.memory.read a :=
    h.above
  refine ⟨h.pc, ⟨?_, fun j u hj => ?_, fun a ha => ?_, h.fp, h.callDepths⟩, h.shows, hr.sp_le,
    hr.fp_le⟩
  · rw [hsp, Stacked.length_cons_mul]
    omega
  · cases j with
    | zero =>
      cases hj
      simpa using h.value
    | succ j =>
      have hword := hr.stacked.words (args.length + j) u (by
        rw [List.getElem?_append_right (Nat.le_add_right _ _), Nat.add_sub_cancel_left]
        exact hj)
      have hnonneg : (0 : Int) ≤ j * t.wordSize := by exact_mod_cast Nat.zero_le _
      have hsum := hr.sp_add_args
      have haddress : s.sp + (j + 1 : Nat) * t.wordSize =
          r.sp + (args.length + j : Nat) * t.wordSize := by
        rw [Int.natCast_add, Int.natCast_add, Int.add_mul, Int.add_mul, Int.natCast_one,
          Int.one_mul]
        omega
      rw [habove _ (by rw [haddress, Int.natCast_add, Int.add_mul]; omega), haddress]
      exact hword
  · have hwords : (0 : Int) ≤ vs.length * t.wordSize := by exact_mod_cast Nat.zero_le _
    rw [habove a (by omega)]
    exact hr.stacked.above a ha

/-- From a call into the body of the method. -/
theorem At.enter {g : String} {m : Signature} {B : Assembly}
    (hlength : args.length = m.params.length) (hcall : code.HasAt k (callCode g args.length))
    (hcode : code.HasAt n (methodCode g m B)) (h : At t base k (args ++ vs) w s) :
    Leads img d (fun s' => ∃ r, At t base (k + 1) (args ++ vs) w r ∧
      Between ⟨t, some m⟩ (callerOf t base r vs (k + 2)) (m.frame args)
        (n + 1 + m.locals.length) w s') s := by
  have hw := L.wordSize_pos
  have hlabel : code[n]? = some (.label (methodLabel g)) := hcode.head
  have hback : k + 2 < 2147483648 := by
    have hlt := (List.getElem?_eq_some_iff.1 hcall.tail.head).1
    have := L.short
    omega
  refine (h.line_push L hcall.head).trans fun s₁ h₁ => ?_
  have hr := h₁.drop
  have hstep := step_call (h₁.sp_lt L) (h₁.code_eq L hcall.tail.head) (L.places hlabel)
  rw [h₁.stacked.top, L.wordSize, h₁.pc] at hstep
  refine Leads.trans (Q := fun s₂ => s₂.pc = n ∧ s₂.sp = s₂.fp ∧ Shows t w s₂ ∧
    Linkage t.wordSize m.params.length (callerOf t base (s₁.drop t.wordSize) vs (k + 2)) s₂ ∧
    ∀ (i : Nat) v, args[i]? = some v →
      s₂.memory.read (s₂.fp + (i + 2 : Nat) * t.wordSize) = v)
    (.step hstep fun _ hd => ?_) fun s₂ ⟨hpc, hsp, hshows, hlink, hargs⟩ => ?_
  · have hd : d ≤ (s₁.drop t.wordSize).sp - t.wordSize - t.wordSize := hd
    have hglobals := L.globals_le
    refine ⟨rfl, rfl, ?_, hlength ▸ linkage_enter L hr hd hback, fun i v hi => ?_⟩
    · refine hr.shows.of_data L rfl fun a ha => ?_
      rw [State.memory_goto, State.memory_enter, Memory.read_write_of_ne _ (by omega),
        Memory.read_write_of_ne _ (by omega)]
    · have hword := hr.stacked.words i v (by
        rw [List.getElem?_append_left (List.getElem?_eq_some_iff.1 hi).1]
        exact hi)
      have hnonneg : (0 : Int) ≤ i * t.wordSize := by exact_mod_cast Nat.zero_le _
      have htwo : ((i + 2 : Nat) : Int) * t.wordSize = i * t.wordSize + t.wordSize + t.wordSize := by
        rw [Int.natCast_add, Int.add_mul]
        omega
      rw [State.memory_goto, State.memory_enter, State.fp_goto, State.fp_enter, htwo,
        Memory.read_write_of_ne _ (by omega), Memory.read_write_of_ne _ (by omega), ← hword]
      congr 1
      omega
  · have htop := hlink.fp_le
    have hle := hlink.top_le
    have h₂ : At t s₂ n [] w s₂ := ⟨hpc, .refl s₂, hshows, by omega, by omega⟩
    refine (h₂.line_label L hlabel).trans fun s₃ h₃ => ?_
    refine (h₃.locals L m.locals.length hcode.left.left.right).trans fun s₄ h₄ => .here ?_
    rw [List.append_nil] at h₄
    have hsees := sees_frame (by omega) hlength hlink hsp hargs h₄
    have hlink₄ := hlink.of_above h₄.stacked.fp h₄.stacked.callDepths fun a ha =>
      h₄.stacked.above a (by omega)
    refine ⟨_, hr, h₄.pc, hsees, ⟨hlink₄, ?_⟩, h₄.shows⟩
    have hsp₄ := h₄.stacked.sp
    rw [List.length_replicate] at hsp₄
    have hfp₄ := h₄.stacked.fp
    show s₄.sp + m.locals.length * t.wordSize = s₄.fp
    omega

/-- The code of calls does what the interpreter does with them. -/
theorem callsSimulate (hmethods : MethodsLinked p t code) (n : Nat) :
    CallsSimulate t code img d (p.callWithin n) := by
  induction n with
  | zero => exact fun _ _ _ _ => .outOfFuel
  | succ n ih =>
    intro g m args k base vs w s hm hlength hcode h
    obtain ⟨m', j, B, ls, ls', hfind, rfl, hj, hB, hfree, hmatch⟩ := hmethods hm
    rw [Program.callWithin]
    simp only [hfind, hlength, ne_eq, not_true_eq_false, if_false]
    refine .after (h.enter L hlength hcode hj) fun s₁ ⟨r, hr, h₁⟩ => ?_
    have hbody := (Stmt.simulates (σ := ⟨t, some m'.toSignature⟩) L ih n).all m'.body hB
    have hjB := hj.left.right
    rw [List.length_append, List.length_replicate, ← Nat.add_assoc] at hjB
    have hend := hj.right
    rw [List.length_append, List.length_append, List.length_replicate, ← Nat.add_assoc,
      ← Nat.add_assoc] at hend
    refine (hbody hfree hmatch hjB h₁).bind fun flow w' s' h' => ?_
    cases flow with
    | next f' =>
      have h' : Between _ _ f' _ w' s' := h'
      refine .ok ((h'.base.line_push L hend.head).trans fun s₂ h₂ => ?_)
      refine (h₂.leave (n := 0) L rfl h' hend.tail).trans fun s₃ h₃ => .here ?_
      exact h₃.2.at L hr
    | returned v => exact .ok (.here (h'.2.at L hr))

end Calls

end Lpl
