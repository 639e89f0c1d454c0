import Lpl.Proofs.Balance.Slots
import Lpl.Proofs.Simulation.Call

/-!
# Frames on the stack

A state `Holds` slots if these are the words between its stack pointer and its frame pointer. In a call,
the frame pointer is at the linkage words, and what is above the parameters is the stack of the caller as
it was before the arguments. `Nested` says this for all open calls, out to the main body.

The caller is remembered as a state of its own. So what a line does is a matter of the innermost frame
only, and a `ret` brings the remembered state back.

**Theorem (`Balanced.fares`).** In a state at a line of a body, with the slots of this line on the stack,
the line leads to another such state, or is a `halt` with nothing on the stack, or divides by 0.
-/

namespace Lpl

open Machine

/-! ## Words and slots -/

/-- The address of a place, where `fp` is the frame pointer. -/
def Place.addressIn (w : Nat) (fp : Int) : Place → Int
  | global offset => (global offset).displacement w
  | param k => fp + (param k).displacement w
  | localVar k => fp + (localVar k).displacement w

/-- What a slot says of a word. -/
def Slot.Is (w : Nat) (fp : Int) : Slot → Int32 → Prop
  | any, _ => True
  | const v, u => u = v
  | frame, u => u = .ofInt fp
  | place p, u => u = .ofInt (p.addressIn w fp)

/-- The address of a place is its displacement from the origin. -/
theorem Slot.is_place {w : Nat} {fp : Int} {p : Place} {u : Int32} (h : p.origin.Is w fp u) :
    (Slot.place p).Is w fp (u + .ofInt (p.displacement w)) := by
  cases p with
  | global offset =>
    obtain rfl : u = 0 := h
    exact Int32.zero_add _
  | param k =>
    obtain rfl : u = .ofInt fp := h
    exact (Int32.ofInt_add _ _).symm
  | localVar k =>
    obtain rfl : u = .ofInt fp := h
    exact (Int32.ofInt_add _ _).symm

theorem addressIn_inMethod? {m : Signature} {x : String} {v : Variable} {w : Nat} {fp : Int}
    (h : Scope.inMethod? m x = some v) :
    v.place.addressIn w fp = fp + v.place.displacement w := by
  have hbase := base_of_inMethod? h
  cases hp : v.place with
  | global offset =>
    rw [hp] at hbase
    cases hbase
  | param k => rfl
  | localVar k => rfl

theorem addressIn_global? {t : Table} {x : String} {v : Variable} {w : Nat} {fp : Int}
    (h : Scope.global? t x = some v) : v.place.addressIn w fp = v.place.displacement w := by
  obtain ⟨⟨i, ty⟩, -, rfl⟩ := Option.map_eq_some_iff.1 h
  rfl

/-- The slots are those of the words between the stack pointer and the frame pointer, where a word has
`w` bytes. -/
structure Holds (w : Nat) (K : List Slot) (s : State) : Prop where
  sp_add : s.sp + K.length * w = s.fp
  slots : ∀ {j : Nat} {a : Slot}, K[j]? = some a → a.Is w s.fp (s.memory.read (s.sp + j * w))

namespace Holds

variable {w : Nat} {K X : List Slot} {a b : Slot} {s s' : State} {u v : Int32}

theorem sp_le (h : Holds w K s) : s.sp ≤ s.fp := by
  have : (0 : Int) ≤ K.length * w := by exact_mod_cast Nat.zero_le _
  have := h.sp_add
  omega

theorem sp_cons (h : Holds w (a :: K) s) : s.sp + w + K.length * w = s.fp := by
  have hsum := h.sp_add
  rw [List.length_cons, Int.natCast_add, Int.add_mul, Int.natCast_one, Int.one_mul] at hsum
  omega

/-- Words of which nothing is known may change. -/
theorem congr (h : Holds w K s) (hsp : s'.sp = s.sp) (hfp : s'.fp = s.fp)
    (hmem : ∀ {j : Nat} {a : Slot}, K[j]? = some a → a ≠ .any →
      s'.memory.read (s.sp + j * w) = s.memory.read (s.sp + j * w)) : Holds w K s' := by
  refine ⟨by rw [hsp, hfp]; exact h.sp_add, fun {j a} hj => ?_⟩
  by_cases ha : a = .any
  · subst ha
    trivial
  · rw [hsp, hfp, hmem hj ha]
    exact h.slots hj

/-- Words below the stack may change. -/
theorem of_above (h : Holds w K s) (hsp : s'.sp = s.sp) (hfp : s'.fp = s.fp)
    (hmem : ∀ x, s.sp ≤ x → s'.memory.read x = s.memory.read x) : Holds w K s' := by
  refine h.congr hsp hfp fun {j a} _ _ => hmem _ ?_
  have : (0 : Int) ≤ j * w := by exact_mod_cast Nat.zero_le _
  omega

theorem top (h : Holds w (a :: K) s) : a.Is w s.fp (s.memory.read s.sp) := by
  have htop := h.slots (j := 0) rfl
  rwa [Int.natCast_zero, Int.zero_mul, Int.add_zero] at htop

theorem drop (h : Holds w (a :: K) s) : Holds w K (s.drop w) := by
  refine ⟨h.sp_cons, fun {j b} hj => ?_⟩
  have hslot := h.slots (j := j + 1) hj
  rw [Int.natCast_add, Int.add_mul, Int.natCast_one, Int.one_mul] at hslot
  rw [State.sp_drop, Int.add_assoc, Int.add_comm (w : Int)]
  exact hslot

/-- One more word, where nothing changes above it. -/
theorem cons (h : Holds w K s) (hsp : s'.sp = s.sp - w) (hfp : s'.fp = s.fp)
    (hmem : ∀ x, s.sp ≤ x → s'.memory.read x = s.memory.read x)
    (ha : a.Is w s.fp (s'.memory.read s'.sp)) : Holds w (a :: K) s' := by
  have hsum := h.sp_add
  refine ⟨?_, fun {j b} hj => ?_⟩
  · rw [List.length_cons, Int.natCast_add, Int.add_mul, Int.natCast_one, Int.one_mul, hsp, hfp]
    omega
  · rw [hfp]
    cases j with
    | zero =>
      cases hj
      rwa [Int.natCast_zero, Int.zero_mul, Int.add_zero]
    | succ j =>
      have hslot := h.slots (j := j) hj
      have hpos : (0 : Int) ≤ j * w := by exact_mod_cast Nat.zero_le _
      have haddress : s'.sp + (j + 1 : Nat) * w = s.sp + j * w := by
        rw [hsp, Int.natCast_add, Int.add_mul, Int.natCast_one, Int.one_mul]
        omega
      rwa [haddress, hmem _ (by omega)]

theorem push (hw : 0 < w) (h : Holds w K s) (hv : a.Is w s.fp v) :
    Holds w (a :: K) (s.push w v) := by
  refine h.cons rfl rfl (fun x hx => Memory.read_write_of_ne _ (by omega) v) ?_
  rwa [State.memory_push, State.sp_push, Memory.read_write_self]

theorem goto (h : Holds w K s) (n : Nat) : Holds w K (s.goto n) := ⟨h.sp_add, h.slots⟩

/-- Slots below the topmost ones are those of the state without the words on top. -/
theorem dropAll {n : Nat} (h : Holds w (X ++ K) s) (hn : X.length = n) :
    Holds w K { s with sp := s.sp + n * w } := by
  subst hn
  have hsum := h.sp_add
  rw [List.length_append, Int.natCast_add, Int.add_mul] at hsum
  refine ⟨?_, fun {j a} hj => ?_⟩
  · show s.sp + X.length * w + K.length * w = s.fp
    omega
  · have hslot := h.slots (j := X.length + j) (a := a) (by
      rw [List.getElem?_append_right (Nat.le_add_right _ _), Nat.add_sub_cancel_left]
      exact hj)
    rw [Int.natCast_add, Int.add_mul, ← Int.add_assoc] at hslot
    exact hslot

/-- Words of the data segment may change. -/
theorem store (h : Holds w K s) {x : Int} (hx : x < s.sp) (v : Int32) : Holds w K (s.store x v) :=
  h.of_above rfl rfl fun _ _ => Memory.read_write_of_ne _ (by omega) v

/-- Words of which nothing is known may change, and so may those above the frame pointer. -/
theorem store_above (hw : 0 < w) {n : Nat} (h : Holds w (X ++ List.replicate n .any) s) {x : Int}
    (hx : s.fp ≤ x + n * w) (v : Int32) : Holds w (X ++ List.replicate n .any) (s.store x v) := by
  refine h.congr rfl rfl fun {j b} hj hb => Memory.read_write_of_ne _ ?_ v
  have hlt : j < X.length := by
    by_contra hge
    rw [List.getElem?_append_right (by omega)] at hj
    exact hb (List.eq_of_mem_replicate (List.mem_of_getElem? hj))
  have hsum := h.sp_add
  rw [List.length_append, List.length_replicate, Int.natCast_add, Int.add_mul] at hsum
  have hmul : (j : Int) * w < X.length * w := Int.mul_lt_mul_of_pos_right (by omega) (by omega)
  omega

end Holds

/-! ## Open calls -/

/-- The frames of all open calls, where `a` is the method that the innermost one is of. The caller's state
`r` is the one before the arguments of the call, and the call goes on at line `back` with its value on this
stack. -/
inductive Nested (code : Assembly) (t : Table) : (a : Option Signature) → State → Prop
  | main {s} : s.fp = stackTop → Nested code t none s
  | call {m s back r a K} :
    Linkage t.wordSize m.params.length ⟨back, r.fp, r.callDepths, r.sp, r.memory⟩ s →
    Nested code t a r → Holds t.wordSize K r → Stands code ⟨t, a⟩ back (.any :: K) →
    Nested code t (some m) s

namespace Nested

variable {code : Assembly} {t : Table} {a : Option Signature} {s s' : State}

theorem fp_le (h : Nested code t a s) : s.fp ≤ stackTop := by
  cases h with
  | main hfp => exact Int.le_of_eq hfp
  | call hlink _ _ _ =>
    have := hlink.fp_le
    have := hlink.top_le
    omega

/-- Frames do not change with what is below them. -/
theorem of_above (h : Nested code t a s) (hfp : s'.fp = s.fp) (hdepths : s'.callDepths = s.callDepths)
    (hmem : ∀ x, s.fp ≤ x → s'.memory.read x = s.memory.read x) : Nested code t a s' := by
  cases h with
  | main hmain => exact .main (hfp.trans hmain)
  | call hlink hnested hholds hback =>
    exact .call (hlink.of_above hfp hdepths hmem) hnested hholds hback

end Nested

/-- The state is at a line of a body, that of the method `a` or the main one, with the slots `K` of this
line on its stack. -/
structure Poised (code : Assembly) (t : Table) (a : Option Signature) (K : List Slot) (s : State) :
    Prop where
  stands : Stands code ⟨t, a⟩ s.pc K
  holds : Holds t.wordSize K s
  nested : Nested code t a s

/-- The state is at a line of some body, with the slots of this line on its stack. -/
def Balanced (code : Assembly) (t : Table) (s : State) : Prop := ∃ a K, Poised code t a K s

/-- The next line goes on to a state in `P`, halts with an empty stack, or divides by 0. Only states with
the stack above the `d` bytes of the data segment count. -/
inductive Fares (img : Image) (d : Int) (P : State → Prop) (s : State) : Prop
  | goes {s'} : step img s = .ok true s' → (d ≤ s'.sp → P s') → Fares img d P s
  | halts : step img s = .ok false s → s.sp = stackTop → Fares img d P s
  | divides {s'} : step img s = .error .divisionByZero s' → Fares img d P s

/-! ## Lines -/

namespace Poised

variable {code : Assembly} {t : Table} {img : Image} {d : Int} {a : Option Signature} {K : List Slot}
  {x y z : Slot} {s s' : State} {v : Int32}

/-- Lines that change nothing above the frame pointer. -/
theorem balanced (h : Poised code t a K s) {K' : List Slot} (hstands : Stands code ⟨t, a⟩ s'.pc K')
    (hholds : Holds t.wordSize K' s') (hfp : s'.fp = s.fp) (hdepths : s'.callDepths = s.callDepths)
    (hmem : ∀ b, s.fp ≤ b → s'.memory.read b = s.memory.read b) : Balanced code t s' :=
  ⟨a, K', hstands, hholds, h.nested.of_above hfp hdepths hmem⟩

/-- A line that writes to the data segment, when it has taken words from the stack. -/
theorem moved {K' : List Slot} {q b : Int} (h : Poised code t a K s)
    (hnext : Stands code ⟨t, a⟩ (s.pc + 1) K') (hholds : Holds t.wordSize K' { s with sp := q })
    (hd : d ≤ q) (hb : b < d)
    (hstep : step img s = .ok true ((State.store b v { s with sp := q }).goto (s.pc + 1))) :
    Fares img d (Balanced code t) s := by
  have hle : q ≤ s.fp := hholds.sp_le
  have hlow : b < q := by omega
  exact .goes hstep fun _ => h.balanced hnext ((hholds.store hlow v).goto _) rfl rfl
    fun c _ => Memory.read_write_of_ne _ (by omega) v

variable (L : Linked t code img d)

include L

theorem sp_lt (h : Poised code t a (x :: K) s) : s.sp < stackTop := by
  have hw := L.wordSize_pos
  have hsum := h.holds.sp_cons
  have hK : (0 : Int) ≤ K.length * t.wordSize := by exact_mod_cast Nat.zero_le _
  have hfp := h.nested.fp_le
  omega

theorem sp_add_lt (h : Poised code t a (x :: y :: K) s) :
    s.sp + img.wordSize < stackTop := by
  have hw := L.wordSize_pos
  have hsum := h.holds.drop.sp_cons
  have hK : (0 : Int) ≤ K.length * t.wordSize := by exact_mod_cast Nat.zero_le _
  have hfp := h.nested.fp_le
  rw [State.sp_drop, State.fp_drop] at hsum
  rw [L.wordSize]
  omega

/-- A line that pushes a word, when it has taken words from the stack. -/
theorem pushedAt {K' : List Slot} {q : Int} (h : Poised code t a K s)
    (hnext : Stands code ⟨t, a⟩ (s.pc + 1) (x :: K')) (hholds : Holds t.wordSize K' { s with sp := q })
    (hv : x.Is t.wordSize s.fp v)
    (hstep : step img s = .ok true
      ((State.push t.wordSize v { s with sp := q }).goto (s.pc + 1))) :
    Fares img d (Balanced code t) s := by
  have hw := L.wordSize_pos
  have hle : q ≤ s.fp := hholds.sp_le
  refine .goes hstep fun _ => h.balanced hnext ((hholds.push (by omega) hv).goto _) rfl rfl
    fun b _ => Memory.read_write_of_ne _ ?_ v
  show q - t.wordSize ≠ b
  omega

theorem pushed (h : Poised code t a K s) (hnext : Stands code ⟨t, a⟩ (s.pc + 1) (x :: K))
    (hv : x.Is t.wordSize s.fp v)
    (hstep : step img s = .ok true ((s.push img.wordSize v).goto (s.pc + 1))) :
    Fares img d (Balanced code t) s := by
  rw [L.wordSize] at hstep
  exact h.pushedAt L hnext h.holds hv hstep

/-- A line that makes some word of the word on top. -/
theorem replaced (h : Poised code t a (x :: K) s)
    (hnext : Stands code ⟨t, a⟩ (s.pc + 1) (.any :: K))
    (hstep : step img s = .ok true
      (((s.drop img.wordSize).push img.wordSize v).goto (s.pc + 1))) :
    Fares img d (Balanced code t) s := by
  rw [L.wordSize] at hstep
  exact h.pushedAt L hnext h.holds.drop trivial hstep

/-- A line that makes a word of the two on top. -/
theorem combined (h : Poised code t a (x :: y :: K) s)
    (hnext : Stands code ⟨t, a⟩ (s.pc + 1) (z :: K)) (hv : z.Is t.wordSize s.fp v)
    (hstep : step img s = .ok true
      ((((s.drop img.wordSize).drop img.wordSize).push img.wordSize v).goto (s.pc + 1))) :
    Fares img d (Balanced code t) s := by
  rw [L.wordSize] at hstep
  exact h.pushedAt L hnext h.holds.drop.drop hv hstep

/-- A line that takes a word and prints it. -/
theorem printed {text : String} (h : Poised code t a (x :: K) s)
    (hnext : Stands code ⟨t, a⟩ (s.pc + 1) K)
    (hstep : step img s = .ok true (((s.drop img.wordSize).print text).goto (s.pc + 1))) :
    Fares img d (Balanced code t) s := by
  rw [L.wordSize] at hstep
  have hholds : Holds t.wordSize K ((s.drop t.wordSize).print text) :=
    h.holds.drop.of_above rfl rfl fun _ _ => rfl
  exact .goes hstep fun _ => h.balanced hnext (hholds.goto _) rfl rfl fun _ _ => rfl

/-- Variables of the method are on the stack. -/
theorem variable_inStack {m : Signature} {name : String} {u : Variable} {X : List Slot}
    (h : Poised code t (some m) (X ++ Scope.floor ⟨t, some m⟩) s) (hd : d ≤ s.sp)
    (hu : Scope.inMethod? m name = some u) :
    0 ≤ s.fp + u.place.displacement t.wordSize ∧
      s.fp + u.place.displacement t.wordSize ≤ stackTop := by
  have hw := L.wordSize_pos
  have hdata := L.data_nonneg
  obtain ⟨hlow, hhigh, -⟩ := displacement_bounds (w := t.wordSize) (by omega) hu
  have hsum := h.holds.sp_add
  rw [Scope.floor, List.length_append, List.length_replicate, Int.natCast_add, Int.add_mul] at hsum
  have hX : (0 : Int) ≤ X.length * t.wordSize := by exact_mod_cast Nat.zero_le _
  cases h.nested with
  | call hlink _ _ _ =>
    have htop := hlink.top_eq
    have htop_le := hlink.top_le
    omega

/-- A line that takes a word and puts it into a variable of the method. -/
theorem assigned {m : Signature} {name : String} {u : Variable} {X : List Slot}
    (h : Poised code t (some m) (x :: y :: (X ++ Scope.floor ⟨t, some m⟩)) s)
    (hnext : Stands code ⟨t, some m⟩ (s.pc + 1) (X ++ Scope.floor ⟨t, some m⟩))
    (hu : Scope.inMethod? m name = some u)
    (hstep : step img s = .ok true ((((s.drop t.wordSize).drop t.wordSize).store
      (s.fp + u.place.displacement t.wordSize) v).goto (s.pc + 1))) :
    Fares img d (Balanced code t) s := by
  have hw := L.wordSize_pos
  obtain ⟨hlow, hhigh, hfp, hback⟩ := displacement_bounds (w := t.wordSize) (by omega) hu
  have hholds := h.holds.drop.drop.store_above (by omega)
    (x := s.fp + u.place.displacement t.wordSize) (n := m.locals.length)
    (by rw [State.fp_drop, State.fp_drop]; omega) v
  cases h.nested with
  | call hlink hnested hcaller hreturn =>
    have htop := hlink.top_eq
    have hlink' := hlink.store (a := s.fp + u.place.displacement t.wordSize) (by omega) (by omega)
      (by omega) v
    exact .goes hstep fun _ => ⟨some m, _, hnext, hholds.goto _,
      .call (hlink'.of_above rfl rfl fun _ _ => rfl) hnested hcaller hreturn⟩

/-- A store into a variable. -/
theorem stored {X : List Slot} {p : Place}
    (h : Poised code t a (x :: .place p :: (X ++ Scope.floor ⟨t, a⟩)) s)
    (hnext : Stands code ⟨t, a⟩ (s.pc + 1) (X ++ Scope.floor ⟨t, a⟩))
    (hplace : Scope.HasPlace ⟨t, a⟩ p) (hd : d ≤ s.sp) (hi : img.code[s.pc]? = some .store) :
    Fares img d (Balanced code t) s := by
  have hstep := step_store (h.sp_lt L) (h.sp_add_lt L) hi
  have haddress : s.memory.read (s.sp + t.wordSize) = .ofInt (p.addressIn t.wordSize s.fp) :=
    h.holds.drop.top
  rw [L.wordSize, haddress] at hstep
  obtain ⟨name, u, hu, rfl⟩ := hplace
  rcases find?_cases hu with ⟨m, hm, hslot⟩ | ⟨-, hglobal⟩
  · obtain rfl : a = some m := hm
    obtain ⟨hlow, hhigh⟩ := variable_inStack L (X := x :: .place u.place :: X) h hd hslot
    rw [addressIn_inMethod? hslot, toInt_ofInt_of_inStack hlow hhigh] at hstep
    exact h.assigned L hnext hslot hstep
  · obtain ⟨hlow, hlt⟩ := L.global_lt hglobal
    have hw := L.wordSize_pos
    have hglobals := L.globals_le
    have hsp := h.sp_lt L
    rw [addressIn_global? hglobal, toInt_ofInt_of_inStack hlow (by omega)] at hstep
    have htaken : d ≤ s.sp + t.wordSize + t.wordSize := by omega
    exact h.moved hnext h.holds.drop.drop htaken (by omega) hstep

/-- A call opens a frame, and the state before the arguments is remembered. -/
theorem called {args : List Slot} {m : Signature} {n : Nat}
    (h : Poised code t a (.const (.ofNat args.length) :: (args ++ K)) s)
    (hargs : args.length = m.params.length) (hback : Stands code ⟨t, a⟩ (s.pc + 1) (.any :: K))
    (hbody : Stands code ⟨t, some m⟩ n []) (hshort : s.pc + 1 < 2147483648)
    (hstep : step img s = .ok true (((s.drop img.wordSize).enter img.wordSize (s.memory.read s.sp)
      (s.pc + 1)).goto n)) :
    Fares img d (Balanced code t) s := by
  have hargc : s.memory.read s.sp = .ofNat m.params.length := hargs ▸ h.holds.top
  rw [L.wordSize, hargc] at hstep
  have hw := L.wordSize_pos
  have hdata := L.data_nonneg
  have hcaller := h.holds.drop.dropAll hargs
  have hle : (s.drop t.wordSize).sp + m.params.length * t.wordSize ≤ s.fp := hcaller.sp_le
  have hfp := h.nested.fp_le
  have hwords : (0 : Int) ≤ m.params.length * t.wordSize := by exact_mod_cast Nat.zero_le _
  refine .goes hstep fun hd => ⟨some m, [], hbody, ⟨by simp, by simp⟩, .call ?_ ?_ hcaller hback⟩
  · have hd : d ≤ (s.drop t.wordSize).sp - t.wordSize - t.wordSize := hd
    exact linkage_of_enter (r := s.drop t.wordSize) (j := m.params.length) hw (by omega) (by omega)
      ⟨by rw [State.fp_drop]; omega, hfp⟩ hshort
  · exact h.nested.of_above rfl rfl fun _ _ => rfl

/-- A `ret` with the size of the frame and a value on top goes back to the caller. -/
theorem returned {m : Signature}
    (h : Poised code t (some m) (.const (.ofNat m.frameSize) :: x :: Scope.floor ⟨t, some m⟩) s)
    (hd : d ≤ s.sp) (hi : img.code[s.pc]? = some .ret) : Fares img d (Balanced code t) s := by
  have hw := L.wordSize_pos
  have hsize : s.memory.read s.sp = .ofNat m.frameSize := h.holds.top
  cases h.nested with
  | @call _ _ back r a K hlink hnested hcaller hreturn =>
    have hopen : Opened t.wordSize m ⟨back, r.fp, r.callDepths, r.sp, r.memory⟩
        ((s.drop t.wordSize).drop t.wordSize) := by
      refine ⟨hlink.of_above rfl rfl fun _ _ => rfl, ?_⟩
      have hsum := h.holds.drop.drop.sp_add
      rwa [Scope.floor, List.length_replicate] at hsum
    have hlow : d ≤ ((s.drop t.wordSize).drop t.wordSize).sp := by
      rw [State.sp_drop, State.sp_drop]
      omega
    have hback := hopen.back (v := s.memory.read (s.sp + t.wordSize)) L hlow
    have hstep := step_ret (h.sp_lt L) (h.sp_add_lt L) hi hlink.depths_eq (by
      rw [hsize, L.wordSize]
      exact hopen.depth_leave L hlow)
    rw [hsize, L.wordSize] at hstep
    refine .goes hstep fun _ => ⟨a, .any :: K, ?_, ?_, ?_⟩
    · show Stands code ⟨t, a⟩ (unsigned (s.memory.read (s.fp + t.wordSize)).toInt) (.any :: K)
      rw [hlink.back_eq]
      exact hreturn
    · exact hcaller.cons hback.sp hback.fp hback.above trivial
    · have hle := hcaller.sp_le
      exact hnested.of_above hback.fp hback.callDepths fun b hb => hback.above b (by
        show r.sp ≤ b
        omega)

end Poised

section Step

variable {code : Assembly} {t : Table} {img : Image} {d : Int} {s : State}

/-- Every method has a body in the code, behind its label. -/
def MethodsLaid (code : Assembly) (t : Table) : Prop :=
  ∀ {f m}, t.method? f = some m →
    ∃ start F, code[start]? = some (.label (methodLabel f)) ∧ Laid code ⟨t, some m⟩ start F

/-- The next line of a balanced state leads to another one, halts with an empty stack, or divides by 0. -/
theorem Balanced.fares (L : Linked t code img d) (hmethods : MethodsLaid code t)
    (h : Balanced code t s) (hd : d ≤ s.sp) : Fares img d (Balanced code t) s := by
  obtain ⟨a, K, h⟩ := h
  obtain ⟨i, K', hcode, hflows, hnext, htarget⟩ := h.stands.line
  have hi : img.code[s.pc]? = some i := (L.code_eq _).trans hcode
  have hw := L.wordSize_pos
  -- Behind these two lines there need not be another one.
  by_cases hret : i = .ret
  · subst hret
    cases hflows with
    | ret hm =>
      obtain rfl : a = some _ := hm
      exact h.returned L hd hi
  by_cases hhalt : i = .halt
  · subst hhalt
    cases hflows with
    | halt hmain =>
      obtain rfl : a = none := hmain
      cases h.nested with
      | main hfp =>
        have hsum := h.holds.sp_add
        refine .halts (step_halt hi) ?_
        rw [← hfp]
        simpa using hsum
  replace hnext := hnext hhalt hret
  cases hflows with
  | push => exact h.pushed L hnext rfl (step_push hi)
  | value => exact h.pushed L hnext trivial (step_push hi)
  | getFp => exact h.pushed L hnext rfl (step_getFp hi)
  | getDp => exact h.pushed L hnext rfl (step_getDp hi)
  | @address p K =>
    have hoffset : s.memory.read s.sp = .ofInt (p.displacement t.wordSize) := h.holds.top
    have horigin : p.origin.Is t.wordSize s.fp (s.memory.read (s.sp + t.wordSize)) := h.holds.drop.top
    refine h.combined L hnext (Slot.is_place horigin)
      (step_combine (h.sp_lt L) (h.sp_add_lt L) hi rfl ?_)
    rw [hoffset, L.wordSize]
  | load => exact h.replaced L hnext (step_load (h.sp_lt L) hi)
  | store hplace => exact h.stored L hnext hplace hd hi
  | loadi =>
    obtain ⟨b, hb, -⟩ := L.address_of_word hcode rfl
    exact h.pushed L hnext trivial (step_loadi hi hb)
  | storei =>
    obtain ⟨b, hb, -, hlt⟩ := L.address_of_word hcode rfl
    have hstep := step_storei (h.sp_lt L) hi hb
    rw [L.wordSize] at hstep
    exact h.moved hnext h.holds.drop (by omega) hlt hstep
  | add | sub | mul =>
    exact h.combined L hnext trivial (step_combine (h.sp_lt L) (h.sp_add_lt L) hi rfl rfl)
  | div =>
    by_cases hv : s.memory.read s.sp = 0
    · exact .divides (step_div_zero (h.sp_lt L) (h.sp_add_lt L) hi hv)
    · exact h.combined L hnext trivial (step_combine (h.sp_lt L) (h.sp_add_lt L) hi rfl (if_neg hv))
  | testZ => exact h.replaced L hnext (step_testZ (h.sp_lt L) hi)
  | testN => exact h.replaced L hnext (step_testN (h.sp_lt L) hi)
  | outDec => exact h.printed L hnext (step_outDec (h.sp_lt L) hi)
  | outChar => exact h.printed L hnext (step_outChar (h.sp_lt L) hi)
  | label _ =>
    exact .goes (step_label hi) fun _ => h.balanced hnext (h.holds.goto _) rfl rfl fun _ _ => rfl
  | jump =>
    obtain ⟨n, hn, hstands⟩ := htarget _ rfl
    exact .goes (step_jump hi (L.places hn)) fun _ =>
      h.balanced hstands (h.holds.goto _) rfl rfl fun _ _ => rfl
  | jumpIfZero =>
    obtain ⟨n, hn, hstands⟩ := htarget _ rfl
    have hstep := step_jumpIfZero (h.sp_lt L) hi (L.places hn)
    rw [L.wordSize] at hstep
    refine .goes hstep fun _ => h.balanced ?_ (h.holds.drop.goto _) rfl rfl fun _ _ => rfl
    rw [State.pc_goto]
    split
    · exact hstands
    · exact hnext
  | call hm hargs =>
    obtain ⟨n, F, hn, hlaid⟩ := hmethods hm
    have hlt := (List.getElem?_eq_some_iff.1 hcode).1
    have hshort := L.short
    exact h.called L hargs hnext hlaid.stands (by omega) (step_call (h.sp_lt L) hi (L.places hn))
  | ret _ => exact absurd rfl hret
  | halt _ => exact absurd rfl hhalt

end Step

end Lpl
