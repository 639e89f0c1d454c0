import Lpl.Proofs.Arrays.Allocation
import Lpl.Proofs.Lines
import Lpl.Proofs.Simulation.Expr

/-!
# Access to array elements

What the lines do that make arrays and find their elements. From a word that refers to an array, the
code of the indices goes from one reference to the next and leaves the address of the element
(`comes_element`). With an index out of bounds it stops at the first such index (`stops_element`). In
both cases it uses two words of the stack and changes no other word.
-/

namespace Lpl.Machine

variable {img : Image}

/-! ## Lines -/

section Lines

variable {s : State}

theorem read_eq (a : Int) (s : State) : read a s = .ok (s.memory.read a) s := rfl

/-- An index in bounds is found in the block. -/
theorem elementAddress_eq {reference index : Int32} (href : reference ≠ 0) (hlow : 0 ≤ index.toInt)
    (hhigh : index.toInt < (s.memory.read reference.toInt).toInt) :
    elementAddress img reference index s =
      .ok (.ofInt (reference.toInt + (index.toInt + 1) * img.wordSize)) s := by
  have hin : ¬ (index.toInt < 0 ∨ (s.memory.read reference.toInt).toInt ≤ index.toInt) := by omega
  rw [elementAddress, if_neg href]
  refine (bind_ok (read_eq reference.toInt s)).trans ?_
  simp only [if_neg hin]
  rfl

theorem elementAddress_outOfBounds {reference index : Int32} (href : reference ≠ 0)
    (hout : ¬ (0 ≤ index.toInt ∧ index.toInt < (s.memory.read reference.toInt).toInt)) :
    elementAddress img reference index s =
      .error (.outOfBounds index (s.memory.read reference.toInt)) s := by
  have hout : index.toInt < 0 ∨ (s.memory.read reference.toInt).toInt ≤ index.toInt := by omega
  rw [elementAddress, if_neg href]
  refine (bind_ok (read_eq reference.toInt s)).trans ?_
  simp only [if_pos hout]
  rfl

end Lines

section

variable {room k : Nat} {base s : State} {u v : Int32} {us vs : List Int32}

theorem Atop.line_arrayIndex {a : Int32} (hi : img.code.toList[k]? = some .arrayIndex)
    (h : Atop img.wordSize room base k (v :: u :: vs) s)
    (ha : elementAddress img u v ((s.drop img.wordSize).drop img.wordSize) =
      .ok a ((s.drop img.wordSize).drop img.wordSize)) :
    Goes img (Atop img.wordSize room base (k + 1) (a :: vs)) s := by
  rw [← h.stacked.top, ← h.second] at ha
  exact h.combined (step_of_execute (h.code_eq hi)
    ((bind_pop_pop h.sp_lt h.drop.sp_lt).trans (bind_ok ha)))

/-- The machine stops with the fault `e`, in a state in `Q`. -/
def StopsWith (img : Image) (e : Fault) (Q : State → Prop) (s : State) : Prop :=
  ∃ s' s'', Reaches img s s' ∧ step img s' = .error e s'' ∧ Q s''

theorem Comes.stops {e : Fault} {P Q : State → Prop} (h : Comes img P s)
    (hP : ∀ s', P s' → StopsWith img e Q s') : StopsWith img e Q s := by
  obtain ⟨s₁, h₁, hp⟩ := h
  obtain ⟨s₂, s₃, h₂, hfault, hq⟩ := hP s₁ hp
  exact ⟨s₂, s₃, h₁.trans h₂, hfault, hq⟩

theorem Atop.fault_arrayIndex {e : Fault} (hi : img.code.toList[k]? = some .arrayIndex)
    (h : Atop img.wordSize room base k (v :: u :: vs) s)
    (he : elementAddress img u v ((s.drop img.wordSize).drop img.wordSize) =
      .error e ((s.drop img.wordSize).drop img.wordSize)) :
    StopsWith img e (Atop img.wordSize room base k vs) s := by
  rw [← h.stacked.top, ← h.second] at he
  exact ⟨s, _, .refl s, step_fault (h.code_eq hi)
    ((bind_pop_pop h.sp_lt h.drop.sp_lt).trans (bind_error he)), h.drop.drop⟩

/-- All of some words are popped, the last one first. -/
theorem Atop.popMany_eq (h : Atop img.wordSize room base k (us ++ vs) s) (acc : List Int32) :
    popMany img us.length acc s = .ok (us.reverse ++ acc) (s.dropAll img.wordSize us.length) ∧
      Atop img.wordSize room base k vs (s.dropAll img.wordSize us.length) := by
  induction us generalizing s acc with
  | nil =>
    have hnone : s.dropAll img.wordSize 0 = s := by simp [State.dropAll]
    exact ⟨by rw [List.length_nil, hnone]; rfl, by rw [List.length_nil, hnone]; exact h⟩
  | cons u us ih =>
    have hsucc : (s.drop img.wordSize).dropAll img.wordSize us.length =
        s.dropAll img.wordSize (u :: us).length := by
      simp only [State.dropAll, State.drop, List.length_cons, Int.natCast_add, Int.add_mul,
        Int.natCast_one, Int.one_mul, Int.add_assoc, Int.add_comm img.wordSize]
    obtain ⟨hpop, hrest⟩ := ih h.drop (u :: acc)
    rw [hsucc] at hpop hrest
    refine ⟨?_, hrest⟩
    rw [List.length_cons, popMany, bind_pop h.sp_lt, h.stacked.top, hpop, List.reverse_cons,
      List.append_assoc]
    rfl

/-- The sizes and the line that makes the array of them. The array is at the end of the heap, and its
reference is on the stack. -/
theorem Atop.step_newArray {ns : List Int32} (hns : Sized ns)
    (hi : img.code.toList[k]? = some (.newArray ns.length))
    (h : Atop img.wordSize room base k (ns.reverse ++ vs) s) :
    ∃ s₁ mem, Atop img.wordSize room base k vs s₁ ∧
      step img s = .ok true (((s₁.take (arraySize img.wordSize ns) mem).push img.wordSize
        (.ofInt base.heap)).goto (k + 1)) ∧
      Made img.wordSize ns base.heap s₁.memory mem := by
  obtain ⟨hpop, hrest⟩ := h.popMany_eq []
  rw [List.length_reverse, List.reverse_reverse, List.append_nil] at hpop
  rw [List.length_reverse] at hrest
  obtain ⟨mem, hmem, hmade⟩ := allocate_eq h.pos hns (s.dropAll img.wordSize ns.length)
  rw [hrest.heap] at hmem hmade
  have hstep := step_of_execute (h.code_eq hi) ((bind_ok hpop).trans (bind_ok hmem))
  rw [h.pc] at hstep
  exact ⟨_, mem, hrest, hstep, hmade⟩

/-- Behind that line, the reference and the word `u` are on top of a state that has the array. -/
theorem Atop.line_newArray {ns : List Int32} (hns : Sized ns)
    (hi : img.code.toList[k]? = some (.newArray ns.length))
    (h : Atop img.wordSize room base k (ns.reverse ++ [u]) s)
    (hfits : base.heap + arraySize img.wordSize ns ≤ base.sp - img.wordSize) :
    ∃ s₁ base', Atop img.wordSize room base k [u] s₁ ∧
      base'.sp = base.sp ∧ base'.heap = base.heap + arraySize img.wordSize ns ∧
      Made img.wordSize ns base.heap s₁.memory base'.memory ∧
      Goes img (Atop img.wordSize 2 base' (k + 1) [.ofInt base.heap, u]) s := by
  obtain ⟨s₁, mem, h₁, hstep, hmade⟩ := h.step_newArray hns hi
  have hsp : s₁.sp + (1 : Nat) * img.wordSize = base.sp := by
    rw [h₁.stacked.sp]
    exact Int.sub_add_cancel _ _
  have hword : mem.read s₁.sp = u := by
    rw [hmade.frame _ (.inr (by omega)), h₁.stacked.top]
  have hwords : ∀ (j : Nat) v, [u][j]? = some v → mem.read (s₁.sp + j * img.wordSize) = v := by
    intro j v hj
    cases j with
    | zero =>
      cases hj
      simpa using hword
    | succ j => cases hj
  have hatop : Atop img.wordSize 2 ((s₁.take (arraySize img.wordSize ns) mem).dropAll img.wordSize
      [u].length) (s₁.take (arraySize img.wordSize ns) mem).pc [u]
      (s₁.take (arraySize img.wordSize ns) mem) :=
    .of_words h.pos (Nat.le_succ 1) (Int.lt_of_le_of_lt (Int.le_of_eq hsp) h.top) hwords
  refine ⟨s₁, _, h₁, hsp, ?_, hmade, _, hstep, (hatop.push Nat.one_lt_two _).goto _⟩
  show s₁.heap + _ = _
  rw [h₁.heap]

/-- Words that are pushed one after another. -/
theorem Atop.comes_pushes {ns : List Int32} (hcode : Assembly.HasAt img.code.toList k (ns.map .push))
    (hroom : vs.length + ns.length ≤ room) (h : Atop img.wordSize room base k vs s) :
    Comes img (Atop img.wordSize room base (k + ns.length) (ns.reverse ++ vs)) s := by
  induction ns generalizing k vs s with
  | nil => exact .here h
  | cons n ns ih =>
    rw [List.length_cons] at hroom
    refine (h.line_push hcode.head (by omega)).then fun s₁ h₁ => ?_
    have hrest := ih hcode.tail (by rw [List.length_cons]; omega) h₁
    rwa [List.reverse_cons, List.append_assoc, List.length_cons, Nat.add_comm ns.length,
      ← Nat.add_assoc]

/-- The code that leaves the address of a global. -/
def addressCode (d : Int32) : Assembly := [.getDp, .push d, .add]

theorem Atop.comes_address {d : Int32} (hcode : Assembly.HasAt img.code.toList k (addressCode d))
    (hroom : vs.length + 2 ≤ room) (h : Atop img.wordSize room base k vs s) :
    Comes img (Atop img.wordSize room base (k + 3) (d :: vs)) s := by
  refine (h.line_getDp hcode.head (by omega)).then fun s₁ h₁ => ?_
  refine (h₁.line_push hcode.tail.head hroom).then fun s₂ h₂ => ?_
  have hadd := h₂.line_add hcode.tail.tail.head
  rw [Int32.zero_add] at hadd
  exact hadd.comes

end

/-! ## Elements -/

/-- The code that goes from the address of a reference to the address of an element. -/
def indexCode (is : List Int32) : Assembly :=
  is.flatMap fun i => [.load, .push i, .arrayIndex]

theorem indexCode_cons (i : Int32) (is : List Int32) :
    indexCode (i :: is) = ([.load, .push i, .arrayIndex] : Assembly) ++ indexCode is := rfl

/-- Words with these addresses are below all that the code for indices uses of the stack. -/
def Below (w : Int) (base : State) (a : Int) : Prop := 0 < a ∧ a < base.sp - (2 : Nat) * w

section

variable {k : Nat} {base s : State} {a i : Int32} {r : Int}

theorem Atop.toInt_ofInt {vs : List Int32} (h : Atop img.wordSize 2 base k vs s)
    (hr : Below img.wordSize base r) : (Int32.ofInt r).toInt = r := by
  have hpos := h.pos
  have htop := h.top
  obtain ⟨hlow, hhigh⟩ := hr
  exact toInt_ofInt_of_inStack (Int.le_of_lt hlow) (by omega)

/-- The reference and the index. -/
theorem Atop.comes_reference (hcode : Assembly.HasAt img.code.toList k [.load, .push i])
    (h : Atop img.wordSize 2 base k [a] s) (ha : a.toInt < base.sp - (2 : Nat) * img.wordSize)
    (href : base.memory.read a.toInt = .ofInt r) :
    Comes img (Atop img.wordSize 2 base (k + 2) [i, .ofInt r]) s := by
  have hload := h.line_load hcode.head
  rw [h.read_eq (.inl ha), href] at hload
  exact hload.then fun s₁ h₁ => (h₁.line_push hcode.tail.head Nat.one_lt_two).comes

/-- What the line for an index finds at the reference. -/
theorem Atop.read_reference {vs : List Int32} (h : Atop img.wordSize 2 base k vs s)
    (hr : Below img.wordSize base r) :
    Int32.ofInt r ≠ 0 ∧ ((s.drop img.wordSize).drop img.wordSize).memory.read (Int32.ofInt r).toInt =
      base.memory.read r := by
  have hto := h.toInt_ofInt hr
  constructor
  · intro hzero
    rw [hzero] at hto
    have := hr.1
    rw [← hto] at this
    exact absurd this (by decide)
  · rw [hto]
    exact h.read_eq (.inl hr.2)

theorem Atop.comes_index (hcode : Assembly.HasAt img.code.toList k [.load, .push i, .arrayIndex])
    (h : Atop img.wordSize 2 base k [a] s) (ha : a.toInt < base.sp - (2 : Nat) * img.wordSize)
    (href : base.memory.read a.toInt = .ofInt r) (hr : Below img.wordSize base r)
    (hlow : 0 ≤ i.toInt) (hhigh : i.toInt < (base.memory.read r).toInt) :
    Comes img (Atop img.wordSize 2 base (k + 3) [.ofInt (r + (i.toInt + 1) * img.wordSize)]) s := by
  refine (h.comes_reference (hcode.left (G := [.arrayIndex])) ha href).trans fun s₁ h₁ => ?_
  obtain ⟨hne, hread⟩ := h₁.read_reference hr
  have helement : elementAddress img _ _ _ = _ := elementAddress_eq hne hlow (hread ▸ hhigh)
  rw [h₁.toInt_ofInt hr] at helement
  exact (h₁.line_arrayIndex hcode.tail.tail.head helement).comes

theorem Atop.stops_index (hcode : Assembly.HasAt img.code.toList k [.load, .push i, .arrayIndex])
    (h : Atop img.wordSize 2 base k [a] s) (ha : a.toInt < base.sp - (2 : Nat) * img.wordSize)
    (href : base.memory.read a.toInt = .ofInt r) (hr : Below img.wordSize base r)
    (hout : ¬ (0 ≤ i.toInt ∧ i.toInt < (base.memory.read r).toInt)) :
    StopsWith img (.outOfBounds i (base.memory.read r)) (Atop img.wordSize 2 base (k + 2) []) s := by
  refine (h.comes_reference (hcode.left (G := [.arrayIndex])) ha href).stops fun s₁ h₁ => ?_
  obtain ⟨hne, hread⟩ := h₁.read_reference hr
  have hfault : elementAddress img _ _ _ = _ := elementAddress_outOfBounds hne (hread ▸ hout)
  rw [hread] at hfault
  exact h₁.fault_arrayIndex hcode.tail.tail.head hfault

/-- Among indices, `i` is the first that is out of bounds, of an array with `n` elements. -/
inductive FirstOut : List Int32 → List Int32 → Int32 → Int32 → Prop
  | here {i n : Int32} {is ns : List Int32} :
    ¬ (0 ≤ i.toInt ∧ i.toInt < n.toInt) → FirstOut (i :: is) (n :: ns) i n
  | later {i n j m : Int32} {is ns : List Int32} :
    0 ≤ i.toInt ∧ i.toInt < n.toInt → FirstOut is ns j m → FirstOut (i :: is) (n :: ns) j m

theorem inBounds_or_firstOut {is ns : List Int32} (h : is.length = ns.length) :
    InBounds is ns ∨ ∃ i n, FirstOut is ns i n := by
  induction ns generalizing is with
  | nil =>
    rw [List.length_eq_zero_iff.1 h]
    exact .inl .nil
  | cons n ns ih =>
    obtain ⟨i, is, rfl⟩ := List.exists_cons_of_length_eq_add_one h
    by_cases hi : 0 ≤ i.toInt ∧ i.toInt < n.toInt
    · rcases ih (Nat.succ.inj h) with his | ⟨j, m, hout⟩
      · exact .inl (.cons hi his)
      · exact .inr ⟨j, m, .later hi hout⟩
    · exact .inr ⟨i, n, .here hi⟩

/-- The array at `r` is below all that the code for indices uses of the stack, and it is built. -/
structure Ready (w : Int) (base : State) (ns : List Int32) (r : Int) : Prop where
  pos : 0 < w
  sized : Sized ns
  start : 0 < r
  stop : r + arraySize w ns ≤ base.sp - (2 : Nat) * w
  built : Built w base.memory ns r

namespace Ready

variable {w r : Int} {base : State} {n m : Int32} {ns : List Int32} {i : Int}

theorem below (h : Ready w base ns r) : Below w base r := by
  have hsize := le_arraySize h.pos h.sized
  have hpos := h.pos
  have hstop := h.stop
  exact ⟨h.start, by omega⟩

theorem row (h : Ready w base (n :: m :: ns) r) (hi : 0 ≤ i) (hin : i < n.toInt) :
    Below w base (r + (i + 1) * w) ∧
      base.memory.read (r + (i + 1) * w) = .ofInt (rowAt w r n (m :: ns) i) ∧
      Ready w base (m :: ns) (rowAt w r n (m :: ns) i) := by
  have hpos := h.pos
  have hstart := h.start
  have hstop := h.stop
  have hrows : Sized (m :: ns) := h.sized.2 (by omega)
  have hrow := rowAt_bounds (r := r) hpos hrows hi hin
  have hslot := slot_bounds (r := r) hpos hi hin
  have hsize := le_arraySize hpos hrows
  obtain ⟨href, hbuilt⟩ := h.built.2 i hi hin
  exact ⟨⟨by omega, by omega⟩, href, hpos, hrows, by omega, by omega, hbuilt⟩

end Ready

/-- The code for indices in bounds leaves the address of their element. -/
theorem Atop.comes_element {ns is : List Int32} (hready : Ready img.wordSize base ns r)
    (his : InBounds is ns) (hcode : Assembly.HasAt img.code.toList k (indexCode is))
    (h : Atop img.wordSize 2 base k [a] s) (ha : a.toInt < base.sp - (2 : Nat) * img.wordSize)
    (href : base.memory.read a.toInt = .ofInt r) :
    Comes img (Atop img.wordSize 2 base (k + (indexCode is).length)
      [.ofInt (elementAt img.wordSize ns r is)]) s := by
  induction ns generalizing is r a k s with
  | nil => cases hready.sized
  | cons n ns ih =>
    cases his with
    | @cons i _ is _ hi his =>
    rw [indexCode_cons] at hcode ⊢
    have hhigh : i.toInt < (base.memory.read r).toInt := hready.built.read_length ▸ hi.2
    refine (h.comes_index hcode.left ha href hready.below hi.1 hhigh).trans fun s₁ h₁ => ?_
    cases ns with
    | nil =>
      cases his
      exact .here h₁
    | cons m ns =>
      obtain ⟨hslot, hrow, hready'⟩ := hready.row hi.1 hi.2
      have hto := h₁.toInt_ofInt hslot
      rw [List.length_append, ← Nat.add_assoc, elementAt]
      exact ih hready' his hcode.right h₁ (by rw [hto]; exact hslot.2) (by rw [hto]; exact hrow)

/-- The code for indices stops at the first one that is out of bounds. -/
theorem Atop.stops_element {ns is : List Int32} {j m : Int32} (hready : Ready img.wordSize base ns r)
    (hout : FirstOut is ns j m) (hcode : Assembly.HasAt img.code.toList k (indexCode is))
    (h : Atop img.wordSize 2 base k [a] s) (ha : a.toInt < base.sp - (2 : Nat) * img.wordSize)
    (href : base.memory.read a.toInt = .ofInt r) :
    StopsWith img (.outOfBounds j m) (fun s' => ∃ k', Atop img.wordSize 2 base k' [] s') s := by
  induction hout generalizing r a k s with
  | @here i n is ns hi =>
    rw [indexCode_cons] at hcode
    have hlength := hready.built.read_length
    obtain ⟨s', s'', hreaches, hfault, hatop⟩ :=
      h.stops_index hcode.left ha href hready.below (hlength ▸ hi)
    exact ⟨s', s'', hreaches, hlength ▸ hfault, _, hatop⟩
  | @later i n j m is ns hi hout ih =>
    rw [indexCode_cons] at hcode
    have hhigh : i.toInt < (base.memory.read r).toInt := hready.built.read_length ▸ hi.2
    refine (h.comes_index hcode.left ha href hready.below hi.1 hhigh).stops fun s₁ h₁ => ?_
    cases ns with
    | nil => cases hout
    | cons m ns =>
      obtain ⟨hslot, hrow, hready'⟩ := hready.row hi.1 hi.2
      have hto := h₁.toInt_ofInt hslot
      exact ih hready' hcode.right h₁ (by rw [hto]; exact hslot.2) (by rw [hto]; exact hrow)

end

end Lpl.Machine
