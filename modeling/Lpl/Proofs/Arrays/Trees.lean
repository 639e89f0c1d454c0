import Lpl.Machine.Run
import Lpl.Numeral
import Lpl.Proofs.Arrays.Allocation
import Mathlib.Algebra.Ring.Int.Defs
import Mathlib.Data.List.Pairwise

/-!
# The tree of blocks of an array

**Theorem (`allocate_exact`).** Allocation succeeds if and only if no negative size has only positive ones
before it. Then the array is at the old end of the heap, and the heap has grown by the blocks of its tree,
one behind the other. Each block has its length, and each element of a block that is not innermost refers
to a block of its own. Nothing else has been written. If allocation fails, all that it has written is
between the two ends of the heap too.

`blocks` lists the tree in the order of allocation. That an array is built (`Built`) says what its blocks
hold. What is not written is told by the addresses that are (`allocate_writes`): each is in a block, and
since blocks are apart (`pairwise_blocks`), none of them is an element of an innermost block.

A size that is negative is met in the first row of the first row and so on, so a failure leaves only the
blocks on the way there, without their references (`allocate_eq_error`).
-/

namespace Lpl

/-- The cell at an address is as it was: no word has been written there. -/
def Memory.Untouched (mem mem' : Memory) (x : Int) : Prop := mem'.cells[x]? = mem.cells[x]?

namespace Machine

/-! ## Blocks -/

/-- A length, and behind it as many elements. -/
structure Block where
  /-- The indices that lead to the block, from the array that it is a part of. -/
  path : List Nat
  reference : Int
  length : Int32
  /-- The sizes of the arrays that the elements refer to. An innermost block has none. -/
  rows : List Int32

namespace Block

/-- The bytes of a block: a word for the length and one for each element. -/
def size (w : Int) (b : Block) : Int := (b.length.toInt + 1) * w

/-- The address behind a block. -/
def stop (w : Int) (b : Block) : Int := b.reference + b.size w

/-- The address of an element. -/
def slot (w : Int) (b : Block) (i : Int) : Int := b.reference + (i + 1) * w

/-- The words of a block that allocation writes: the length, and the references to rows. -/
def Writes (w : Int) (b : Block) (x : Int) : Prop :=
  x = b.reference ∨ b.rows ≠ [] ∧ ∃ i : Int, 0 ≤ i ∧ i < b.length.toInt ∧ x = b.slot w i

end Block

/-- The blocks of an array at `r` with the sizes `ns`, where `path` leads to the array: its own block and
then those of its rows. -/
def blocks (w : Int) : List Int32 → List Nat → Int → List Block
  | [], _, _ => []
  | n :: ns, path, r =>
    ⟨path, r, n, ns⟩ ::
      (List.range n.toInt.toNat).flatMap fun i : Nat => blocks w ns (path ++ [i]) (rowAt w r n ns i)

section

variable {w r x : Int} {n m : Int32} {ns ms : List Int32} {path : List Nat} {b c : Block} {mem : Memory}

theorem mem_blocks : b ∈ blocks w (n :: ns) path r ↔ b = ⟨path, r, n, ns⟩ ∨
    ∃ i : Nat, (i : Int) < n.toInt ∧ b ∈ blocks w ns (path ++ [i]) (rowAt w r n ns i) := by
  simp only [blocks, List.mem_cons, List.mem_flatMap, List.mem_range, Int.lt_toNat]

theorem blocks_singleton : blocks w [n] path r = [⟨path, r, n, []⟩] :=
  congrArg (List.cons _) (List.flatMap_eq_nil_iff.2 fun _ _ => rfl)

/-- **Induction over the arrays that a block is a part of**: the one whose own block it is, and from a row
the array that has it. -/
theorem blocks_induction {P : List Int32 → List Nat → Int → Prop} (hb : b ∈ blocks w ns path r)
    (own : P (b.length :: b.rows) b.path b.reference)
    (row : ∀ {n m : Int32} {ns : List Int32} {path : List Nat} {r : Int} {i : Nat}, (i : Int) < n.toInt →
      P (m :: ns) (path ++ [i]) (rowAt w r n (m :: ns) i) → P (n :: m :: ns) path r) : P ns path r := by
  induction ns generalizing path r with
  | nil => cases hb
  | cons n ns ih =>
    rcases mem_blocks.1 hb with rfl | ⟨i, hi, hb⟩
    · exact own
    · cases ns with
      | nil => cases hb
      | cons m ns => exact row hi (ih hb)

/-! ### What blocks have of their array -/

theorem sized_of_mem_blocks (hb : b ∈ blocks w ns path r) (hns : Sized ns) :
    Sized (b.length :: b.rows) := by
  refine blocks_induction (P := fun ns _ _ => Sized ns → Sized (b.length :: b.rows)) hb id ?_ hns
  intro n m ns path r i hi ih hns
  exact ih (hns.2 (by omega))

theorem Built.of_mem_blocks (h : Built w mem ns r) (hb : b ∈ blocks w ns path r) :
    Built w mem (b.length :: b.rows) b.reference := by
  refine blocks_induction (P := fun ns _ r => Built w mem ns r → _) hb id ?_ h
  intro n m ns path r i hi ih h
  exact ih (h.2 i (Int.natCast_nonneg i) hi).2

/-- The rows of a block are blocks. -/
theorem row_mem_blocks (hb : b ∈ blocks w ns path r) (hrows : b.rows = m :: ms) {i : Nat}
    (hi : (i : Int) < b.length.toInt) :
    ⟨b.path ++ [i], rowAt w b.reference b.length (m :: ms) i, m, ms⟩ ∈ blocks w ns path r := by
  refine blocks_induction (P := fun ns path r => _ ∈ blocks w ns path r) hb ?_ ?_
  · rw [hrows]
    exact mem_blocks.2 (.inr ⟨i, hi, mem_blocks.2 (.inl rfl)⟩)
  · intro n m ns path r j hj ih
    exact mem_blocks.2 (.inr ⟨j, hj, ih⟩)

theorem path_prefix_of_mem_blocks (hb : b ∈ blocks w ns path r) : path <+: b.path := by
  refine blocks_induction (P := fun _ path _ => path <+: b.path) hb (List.prefix_refl _) ?_
  intro n m ns path r i hi ih
  exact (List.prefix_append path [i]).trans ih

/-- A path leads to one block. -/
theorem pairwise_path_ne : (blocks w ns path r).Pairwise fun b c => b.path ≠ c.path := by
  induction ns generalizing path r with
  | nil => exact .nil
  | cons n ns ih =>
    rw [blocks, List.pairwise_cons, List.pairwise_flatMap]
    refine ⟨fun b hb => ?_, fun i _ => ih, ?_⟩
    · rintro rfl
      obtain ⟨i, -, hb⟩ := List.mem_flatMap.1 hb
      have hlength := (path_prefix_of_mem_blocks hb).length_le
      rw [List.length_append, List.length_singleton] at hlength
      omega
    · refine List.pairwise_lt_range.imp fun hij b hb c hc heq => ?_
      -- The two prefixes are as long as each other, so the indices that end them are one.
      have hrow := path_prefix_of_mem_blocks hb
      have hrow' := path_prefix_of_mem_blocks hc
      rw [← heq] at hrow'
      have hsame := (List.prefix_of_prefix_length_le hrow hrow' (by simp)).eq_of_length (by simp)
      exact Nat.ne_of_lt hij (List.singleton_inj.1 (List.append_cancel_left hsame))

/-! ### Where blocks are -/

theorem Block.slot_bounds (b : Block) (hw : 0 < w) {i : Int} (hi : 0 ≤ i) (hin : i < b.length.toInt) :
    b.reference + w ≤ b.slot w i ∧ b.slot w i < b.stop w :=
  Machine.slot_bounds hw hi hin

theorem Block.reference_lt_stop (hw : 0 < w) (hlength : 0 ≤ b.length.toInt) : b.reference < b.stop w := by
  have hsize : 0 < (b.length.toInt + 1) * w := Int.mul_pos (by omega) hw
  rw [Block.stop, Block.size]
  omega

theorem bounds_of_mem_blocks (hw : 0 < w) (hns : Sized ns) (hb : b ∈ blocks w ns path r) :
    r ≤ b.reference ∧ b.stop w ≤ r + arraySize w ns := by
  refine blocks_induction (P := fun ns _ r => Sized ns → r ≤ b.reference ∧ b.stop w ≤ r + arraySize w ns)
    hb ?_ ?_ hns
  · intro hns
    exact ⟨Int.le_refl _, Int.add_le_add_left (block_le_arraySize hw hns) _⟩
  · intro n m ns path r i hi ih hns
    have hrows : Sized (m :: ns) := hns.2 (by omega)
    have hrow := rowAt_bounds (r := r) hw hrows (Int.natCast_nonneg i) hi
    have hblock : 0 ≤ (n.toInt + 1) * w := Int.mul_nonneg (by omega) (Int.le_of_lt hw)
    have hin := ih hrows
    omega

/-- Each block is behind all that come before it. -/
theorem pairwise_blocks (hw : 0 < w) (hns : Sized ns) :
    (blocks w ns path r).Pairwise fun b c => b.stop w ≤ c.reference := by
  induction ns generalizing path r with
  | nil => cases hns
  | cons n ns ih =>
    cases ns with
    | nil =>
      rw [blocks_singleton]
      exact List.pairwise_singleton _ _
    | cons m ns =>
      have hlt {i : Nat} (hi : i ∈ List.range n.toInt.toNat) : (i : Int) < n.toInt :=
        Int.lt_toNat.1 (List.mem_range.1 hi)
      have hrows {i : Nat} (hi : i ∈ List.range n.toInt.toNat) : Sized (m :: ns) :=
        hns.2 (Int.lt_of_le_of_lt (Int.natCast_nonneg i) (hlt hi))
      rw [blocks, List.pairwise_cons, List.pairwise_flatMap]
      refine ⟨fun b hb => ?_, fun i hi => ih (hrows hi), ?_⟩
      · obtain ⟨i, hi, hb⟩ := List.mem_flatMap.1 hb
        have hrow := rowAt_bounds (r := r) hw (hrows hi) (Int.natCast_nonneg i) (hlt hi)
        exact Int.le_trans hrow.1 (bounds_of_mem_blocks hw (hrows hi) hb).1
      · refine List.pairwise_lt_range.imp_of_mem fun hi hj hij b hb c hc => ?_
        have hrow := rowAt_lt (r := r) (n := n) hw (hrows hi) (Int.ofNat_lt.2 hij)
        have hb := bounds_of_mem_blocks hw (hrows hi) hb
        have hc := bounds_of_mem_blocks hw (hrows hj) hc
        omega

theorem apart_of_mem_blocks (hw : 0 < w) (hns : Sized ns) (hb : b ∈ blocks w ns path r)
    (hc : c ∈ blocks w ns path r) (hne : b ≠ c) :
    b.stop w ≤ c.reference ∨ c.stop w ≤ b.reference := by
  have happart : (blocks w ns path r).Pairwise fun b c =>
      b.stop w ≤ c.reference ∨ c.stop w ≤ b.reference := (pairwise_blocks hw hns).imp Or.inl
  have hsymm : Std.Symm fun b c : Block => b.stop w ≤ c.reference ∨ c.stop w ≤ b.reference :=
    ⟨fun _ _ => Or.symm⟩
  exact happart.forall hb hc hne

/-! ### How large blocks are -/

theorem sum_size_flatMap {f : Nat → List Block} {size : Int} (k : Nat)
    (h : ∀ i < k, ((f i).map (Block.size w)).sum = size) :
    (((List.range k).flatMap f).map (Block.size w)).sum = k * size := by
  induction k with
  | zero => exact (Int.zero_mul size).symm
  | succ k ih =>
    rw [List.range_succ, List.flatMap_append, List.map_append, List.sum_append,
      ih fun i hi => h i (by omega), List.flatMap_singleton, h k (by omega), Int.natCast_add, Int.add_mul,
      Int.natCast_one, Int.one_mul]

/-- The bytes of an array are those of its blocks. -/
theorem sum_size_blocks (hns : Sized ns) :
    ((blocks w ns path r).map (Block.size w)).sum = arraySize w ns := by
  induction ns generalizing path r with
  | nil => cases hns
  | cons n ns ih =>
    have hrow : ∀ i < n.toInt.toNat,
        ((blocks w ns (path ++ [i]) (rowAt w r n ns i)).map (Block.size w)).sum = arraySize w ns := by
      intro i hi
      cases ns with
      | nil => rfl
      | cons m ns => exact ih (hns.2 (by omega))
    rw [blocks, List.map_cons, List.sum_cons, sum_size_flatMap _ hrow,
      Int.toNat_of_nonneg hns.length_nonneg]
    rfl

end

/-! ## What allocation writes -/

/-- Nothing has been written but at the addresses in `W`. -/
def OnlyWrites (W : Int → Prop) (mem mem' : Memory) : Prop := ∀ x, ¬ W x → mem.Untouched mem' x

/-- The addresses of an array that allocation writes. The path to the array does not matter. -/
def Written (w : Int) (ns : List Int32) (r x : Int) : Prop :=
  ∀ path, ∃ b ∈ blocks w ns path r, b.Writes w x

section

variable {W W' : Int → Prop} {mem mem₁ mem' : Memory}

theorem OnlyWrites.refl (W : Int → Prop) (mem : Memory) : OnlyWrites W mem mem := fun _ _ => rfl

theorem OnlyWrites.trans (h : OnlyWrites W mem mem₁) (h' : OnlyWrites W mem₁ mem') :
    OnlyWrites W mem mem' :=
  fun x hx => (h' x hx).trans (h x hx)

theorem OnlyWrites.mono (h : OnlyWrites W mem mem') (hle : ∀ x, W x → W' x) : OnlyWrites W' mem mem' :=
  fun x hx => h x fun hW => hx (hle x hW)

theorem onlyWrites_write {a : Int} (ha : W a) (mem : Memory) (v : Int32) :
    OnlyWrites W mem (mem.write a v) := by
  intro x hx
  have hne : a ≠ x := by
    rintro rfl
    exact hx ha
  simp [Memory.Untouched, Memory.write, Std.HashMap.getElem?_insert, hne]

end

section

variable {w r x : Int} {n m : Int32} {ns : List Int32} {path : List Nat} {b c : Block}

theorem written_length : Written w (n :: ns) r r := fun _ => ⟨_, mem_blocks.2 (.inl rfl), .inl rfl⟩

theorem written_reference {i : Nat} (hi : (i : Int) < n.toInt) :
    Written w (n :: m :: ns) r (r + w + i * w) := by
  have hslot : r + w + i * w = r + (i + 1) * w := by
    rw [Int.add_mul, Int.one_mul]
    omega
  exact fun _ => ⟨_, mem_blocks.2 (.inl rfl),
    .inr ⟨List.cons_ne_nil m ns, i, Int.natCast_nonneg i, hi, hslot⟩⟩

theorem written_row {i : Nat} (hi : (i : Int) < n.toInt) (h : Written w ns (rowAt w r n ns i) x) :
    Written w (n :: ns) r x := by
  intro path
  obtain ⟨b, hb, hbx⟩ := h (path ++ [i])
  exact ⟨b, mem_blocks.2 (.inr ⟨i, hi, hb⟩), hbx⟩

theorem allocate_writes (img : Image) (hns : Sized ns) (s : State) :
    ∃ mem, allocate img ns s = .ok s.heap (s.take (arraySize img.wordSize ns) mem) ∧
      OnlyWrites (Written img.wordSize ns s.heap) s.memory mem := by
  refine allocate_induction (P := fun ns r => OnlyWrites (Written img.wordSize ns r))
    (Q := fun ns n a h => OnlyWrites fun x => ∃ i : Nat, i < n ∧
      (x = a + i * img.wordSize ∨ Written img.wordSize ns (h + i * arraySize img.wordSize ns) x))
    (fun _ r mem => onlyWrites_write written_length mem _) (fun _ _ _ mem => .refl _ mem) ?_ ?_ hns s
  · intro ns n a h mem mem₁ mem' _ hrow hrest
    refine ((hrow.mono fun x hx => ?_).trans (onlyWrites_write ?_ _ _)).trans (hrest.mono ?_)
    · exact ⟨0, Nat.succ_pos n, .inr (by simpa using hx)⟩
    · exact ⟨0, Nat.succ_pos n, .inl (by simp)⟩
    · rintro x ⟨i, hi, hx⟩
      have hshift : ∀ y z : Int, z + y + i * y = z + (i + 1 : Nat) * y := by
        intro y z
        rw [Int.natCast_add, Int.natCast_one, Int.add_mul, Int.one_mul]
        omega
      rw [hshift, hshift] at hx
      exact ⟨i + 1, by omega, hx⟩
  · intro n m ns r mem mem' hns hrows
    refine (onlyWrites_write written_length mem n).trans (hrows.mono ?_)
    rintro x ⟨i, hi, rfl | hx⟩
    · exact written_reference (Int.lt_toNat.1 hi)
    · exact written_row (Int.lt_toNat.1 hi) hx

theorem Block.Writes.bounds (hw : 0 < w) (hlength : 0 ≤ b.length.toInt) (h : b.Writes w x) :
    b.reference ≤ x ∧ x < b.stop w := by
  rcases h with rfl | ⟨-, i, hi, hin, rfl⟩
  · exact ⟨Int.le_refl _, b.reference_lt_stop hw hlength⟩
  · have hslot := b.slot_bounds hw hi hin
    omega

theorem Written.bounds (hw : 0 < w) (hns : Sized ns) (h : Written w ns r x) :
    r ≤ x ∧ x < r + arraySize w ns := by
  obtain ⟨b, hb, hbx⟩ := h []
  have hin := bounds_of_mem_blocks hw hns hb
  have hx := hbx.bounds hw (sized_of_mem_blocks hb hns).length_nonneg
  omega

/-- The elements of an innermost block are not written. -/
theorem not_written_slot (hw : 0 < w) (hns : Sized ns) (hb : b ∈ blocks w ns path r)
    (hrows : b.rows = []) {i : Int} (hi : 0 ≤ i) (hin : i < b.length.toInt) :
    ¬ Written w ns r (b.slot w i) := by
  intro h
  obtain ⟨c, hc, hcx⟩ := h path
  have hslot := b.slot_bounds hw hi hin
  -- Whatever is written there is in the same block, which has no references, or in one that is apart.
  by_cases hbc : b = c
  · subst hbc
    rcases hcx with hx | ⟨hx, -⟩
    · omega
    · exact hx hrows
  · have happart := apart_of_mem_blocks hw hns hb hc hbc
    have hx := hcx.bounds hw (sized_of_mem_blocks hc hns).length_nonneg
    omega

end

/-! ## Sizes that cannot be allocated -/

theorem sized_cons {n : Int32} {ns : List Int32} (hne : ns ≠ []) :
    Sized (n :: ns) ↔ 0 ≤ n.toInt ∧ (0 < n.toInt → Sized ns) := by
  cases ns with
  | nil => exact absurd rfl hne
  | cons m ns => rfl

/-- Sizes can be allocated if no negative one has only positive ones before it. -/
theorem sized_iff {ns : List Int32} (hne : ns ≠ []) : Sized ns ↔
    ¬ ∃ (before : List Int32) (n : Int32) (after : List Int32),
      ns = before ++ n :: after ∧ n.toInt < 0 ∧ ∀ m ∈ before, 0 < m.toInt := by
  induction ns with
  | nil => exact absurd rfl hne
  | cons n ns ih =>
    constructor
    · rintro hns ⟨before, k, after, heq, hk, hbefore⟩
      cases before with
      | nil =>
        cases heq
        have hlength := hns.length_nonneg
        omega
      | cons m before =>
        obtain ⟨rfl, rfl⟩ := List.cons_eq_cons.1 heq
        obtain ⟨hn, hbefore⟩ := List.forall_mem_cons.1 hbefore
        have hrows : before ++ k :: after ≠ [] := by simp
        exact (ih hrows).1 (((sized_cons hrows).1 hns).2 hn) ⟨before, k, after, rfl, hk, hbefore⟩
    · intro h
      have hn : 0 ≤ n.toInt := Int.not_lt.1 fun hn => h ⟨[], n, ns, rfl, hn, List.forall_mem_nil _⟩
      by_cases hrows : ns = []
      · subst hrows
        exact hn
      · refine (sized_cons hrows).2 ⟨hn, fun hpos => (ih hrows).2 ?_⟩
        rintro ⟨before, k, after, rfl, hk, hbefore⟩
        exact h ⟨n :: before, k, after, rfl, hk, List.forall_mem_cons.2 ⟨hpos, hbefore⟩⟩

theorem allocate_negative {img : Image} {n : Int32} (hn : n.toInt < 0) (ns : List Int32) (s : State) :
    allocate img (n :: ns) s = .error (.negativeSize n) s := by
  cases ns with
  | nil =>
    rw [allocate, if_pos hn]
    rfl
  | cons m ns =>
    rw [allocate, if_pos hn]
    · rfl
    · simp

/-- Allocation fails at the first size that is negative, and has written no more than the lengths of the
blocks on the way to it. -/
theorem allocate_eq_error {img : Image} (hw : 0 < img.wordSize) {ns : List Int32} (hne : ns ≠ [])
    (hns : ¬ Sized ns) (s : State) :
    ∃ n size mem, allocate img ns s = .error (.negativeSize n) (s.take size mem) ∧ 0 ≤ size ∧
      OnlyWrites (fun x => s.heap ≤ x ∧ x < s.heap + size) s.memory mem := by
  induction ns generalizing s with
  | nil => exact absurd rfl hne
  | cons n ns ih =>
    by_cases hn : n.toInt < 0
    · refine ⟨n, 0, s.memory, ?_, Int.le_refl 0, .refl _ _⟩
      rw [allocate_negative hn, State.take, Int.add_zero]
    · cases ns with
      | nil => exact absurd (Int.not_lt.1 hn) hns
      | cons m ns =>
        have hrows : 0 < n.toInt ∧ ¬ Sized (m :: ns) :=
          Classical.not_imp.1 fun hrows => hns ⟨Int.not_lt.1 hn, hrows⟩
        -- The loop ends with its first row, before it writes a reference.
        obtain ⟨k, hk⟩ : ∃ k, n.toInt.toNat = k + 1 := ⟨n.toInt.toNat - 1, by omega⟩
        obtain ⟨l, size, mem, hmem, hsize, hwrites⟩ := ih (List.cons_ne_nil m ns) hrows.2
          (s.take ((n.toInt + 1) * img.wordSize) (s.memory.write s.heap n))
        have hblock : 0 < (n.toInt + 1) * img.wordSize := Int.mul_pos (by omega) hw
        refine ⟨l, (n.toInt + 1) * img.wordSize + size, mem, ?_, by omega,
          (onlyWrites_write ⟨Int.le_refl _, by omega⟩ _ _).trans (hwrites.mono fun x hx => ?_)⟩
        · rw [allocate, if_neg hn]
          · refine (bind_ok (block_eq n s)).trans ?_
            rw [hk, fill]
            refine (bind_error (bind_error hmem)).trans ?_
            rw [State.take, State.take, State.take, Int.add_assoc]
          · simp
        · simp only [State.take] at hx
          omega

/-! ## Allocation -/

/-- Between the ends of the heap in the two states, an array with the sizes `ns` has been made. -/
structure Allocated (w : Int) (ns : List Int32) (s s' : State) : Prop where
  root : ∃ b ∈ blocks w ns [] s.heap, b.path = [] ∧ b.reference = s.heap ∧ b.length :: b.rows = ns
  heap : s'.heap = s.heap + ((blocks w ns [] s.heap).map (Block.size w)).sum
  inside : ∀ b ∈ blocks w ns [] s.heap, s.heap ≤ b.reference ∧ b.stop w ≤ s'.heap
  apart : (blocks w ns [] s.heap).Pairwise fun b c => b.stop w ≤ c.reference
  paths : (blocks w ns [] s.heap).Pairwise fun b c => b.path ≠ c.path
  lengths : ∀ b ∈ blocks w ns [] s.heap, s'.memory.read b.reference = b.length
  /-- The elements of a block that is not innermost. -/
  references : ∀ b ∈ blocks w ns [] s.heap, ∀ m ms, b.rows = m :: ms →
    ∀ i : Nat, (i : Int) < b.length.toInt → ∃ c ∈ blocks w ns [] s.heap,
      c.path = b.path ++ [i] ∧ c.length = m ∧ c.rows = ms ∧
        s'.memory.read (b.slot w i) = .ofInt c.reference
  /-- References are words, and as long as the heap is within 32 bits they are what they stand for. -/
  fits : Numeral.Within Numeral.half32 s.heap → Numeral.Within Numeral.half32 s'.heap →
    ∀ b ∈ blocks w ns [] s.heap, (Int32.ofInt b.reference).toInt = b.reference
  /-- The elements of an innermost block. -/
  elements : ∀ b ∈ blocks w ns [] s.heap, b.rows = [] →
    ∀ i : Nat, (i : Int) < b.length.toInt → s.memory.Untouched s'.memory (b.slot w i)
  outside : ∀ x, x < s.heap ∨ s'.heap ≤ x → s.memory.Untouched s'.memory x
  others : s' = { s with heap := s'.heap, memory := s'.memory }

section

variable {img : Image} {w : Int} {ns : List Int32} {s : State} {mem : Memory}

/-- An array that has been built, with nothing written but lengths and references. -/
theorem Made.allocated (hmade : Made w ns s.heap s.memory mem) (hw : 0 < w) (hns : Sized ns)
    (hwrites : OnlyWrites (Written w ns s.heap) s.memory mem) :
    Allocated w ns s (s.take (arraySize w ns) mem) where
  root := by
    cases ns with
    | nil => cases hns
    | cons n ns => exact ⟨_, mem_blocks.2 (.inl rfl), rfl, rfl, rfl⟩
  heap := by
    rw [sum_size_blocks hns]
    rfl
  inside b hb := bounds_of_mem_blocks hw hns hb
  apart := pairwise_blocks hw hns
  paths := pairwise_path_ne
  lengths b hb := (hmade.built.of_mem_blocks hb).read_length
  references b hb m ms hrows i hi := by
    have hbuilt := hmade.built.of_mem_blocks hb
    rw [hrows] at hbuilt
    exact ⟨_, row_mem_blocks hb hrows hi, rfl, rfl, rfl, (hbuilt.2 i (Int.natCast_nonneg i) hi).1⟩
  fits hlow hhigh b hb := by
    have hleast : -2147483648 ≤ s.heap := hlow.1
    have hmost : s.heap + arraySize w ns < 2147483648 := hhigh.2
    have hin := bounds_of_mem_blocks hw hns hb
    have hlt := b.reference_lt_stop hw (sized_of_mem_blocks hb hns).length_nonneg
    exact Int32.toInt_ofInt_of_le (by omega) (by omega)
  elements b hb hrows i hi := hwrites _ (not_written_slot hw hns hb hrows (Int.natCast_nonneg i) hi)
  outside x hx := hwrites x fun hW => by
    have hin := hW.bounds hw hns
    simp only [State.take] at hx
    omega
  others := rfl

theorem exists_allocate_iff (hw : 0 < img.wordSize) (hne : ns ≠ []) :
    (∃ r s', allocate img ns s = .ok r s') ↔ Sized ns := by
  constructor
  · rintro ⟨r, s', h⟩
    by_contra hns
    obtain ⟨n, size, mem, herror, -⟩ := allocate_eq_error hw hne hns s
    cases h.symm.trans herror
  · intro hns
    obtain ⟨mem, h, -⟩ := allocate_eq hw hns s
    exact ⟨_, _, h⟩

end

/-- Which sizes can be allocated, what allocation has made then, and what it leaves as it was when it
fails. A word has at least one byte; otherwise no size could be popped, and no line would allocate. -/
theorem allocate_exact {img : Image} (hw : 0 < img.wordSize) {ns : List Int32} (hne : ns ≠ [])
    (s : State) :
    ((∃ r s', allocate img ns s = .ok r s') ↔
      ¬ ∃ (before : List Int32) (n : Int32) (after : List Int32),
        ns = before ++ n :: after ∧ n.toInt < 0 ∧ ∀ m ∈ before, 0 < m.toInt) ∧
    (∀ r s', allocate img ns s = .ok r s' → r = s.heap ∧ Allocated img.wordSize ns s s') ∧
    ∀ e s', allocate img ns s = .error e s' → s.heap ≤ s'.heap ∧
      ∀ x, x < s.heap ∨ s'.heap ≤ x → s.memory.Untouched s'.memory x := by
  refine ⟨(exists_allocate_iff hw hne).trans (sized_iff hne), ?_, ?_⟩
  · intro r s' h
    have hns := (exists_allocate_iff hw hne).1 ⟨r, s', h⟩
    obtain ⟨mem, hmem, hmade⟩ := allocate_eq hw hns s
    obtain ⟨mem', hmem', hwrites⟩ := allocate_writes img hns s
    obtain ⟨rfl, rfl⟩ := EStateM.Result.ok.inj (h.symm.trans hmem)
    obtain rfl : mem = mem' :=
      congrArg State.memory (EStateM.Result.ok.inj (hmem.symm.trans hmem')).2
    exact ⟨rfl, hmade.allocated hw hns hwrites⟩
  · intro e s' h
    have hns : ¬ Sized ns := by
      intro hns
      obtain ⟨mem, hok, -⟩ := allocate_eq hw hns s
      cases h.symm.trans hok
    obtain ⟨n, size, mem, herror, hsize, hwrites⟩ := allocate_eq_error hw hne hns s
    obtain ⟨-, rfl⟩ := EStateM.Result.error.inj (h.symm.trans herror)
    simp only [State.take]
    exact ⟨by omega, fun x hx => hwrites x (by omega)⟩

/-- Two rows without elements, so no array is made with the last size. -/
def hiddenSize : List Int32 := [2, 0, -1]

/-- With words of 4 bytes, a block of three words and behind it two of one word. -/
theorem allocate_exact_hiddenSize :
    0 < (Image.ofAssembly 4 []).wordSize ∧ hiddenSize ≠ [] ∧
      ∃ s', allocate (.ofAssembly 4 []) hiddenSize (initial (.ofAssembly 4 [])) = .ok 65536 s' ∧
        s'.heap = 65556 ∧ s'.memory.read 65536 = 2 ∧ s'.memory.read 65540 = 65548 ∧
        s'.memory.read 65544 = 65552 ∧ s'.memory.read 65552 = 0 := by
  have hw : 0 < (Image.ofAssembly 4 []).wordSize := by decide
  have hne : hiddenSize ≠ [] := by decide
  obtain ⟨hok, hmade, -⟩ := allocate_exact hw hne (initial (.ofAssembly 4 []))
  have hsized : Sized hiddenSize := ⟨by decide, fun _ => ⟨by decide, fun h => absurd h (by decide)⟩⟩
  obtain ⟨r, s', h⟩ := hok.2 ((sized_iff hne).1 hsized)
  obtain ⟨rfl, hs⟩ := hmade r s' h
  have hblocks : blocks 4 hiddenSize [] heapBase =
    [⟨[], 65536, 2, [0, -1]⟩, ⟨[0], 65548, 0, [-1]⟩, ⟨[1], 65552, 0, [-1]⟩] := rfl
  have hplace : ∀ c ∈ blocks 4 hiddenSize [] heapBase, ∀ i, c.path = [i] →
      c.reference = 65548 + 4 * i := by
    rw [hblocks]
    intro c hc i hi
    simp only [List.mem_cons, List.not_mem_nil, or_false] at hc
    rcases hc with rfl | rfl | rfl
    · cases hi
    · cases hi
      rfl
    · cases hi
      rfl
  obtain ⟨c₀, hc₀, hpath₀, -, -, href₀⟩ := hs.references _ List.mem_cons_self 0 [-1] rfl 0 (by decide)
  obtain ⟨c₁, hc₁, hpath₁, -, -, href₁⟩ := hs.references _ List.mem_cons_self 0 [-1] rfl 1 (by decide)
  rw [hplace c₀ hc₀ 0 hpath₀] at href₀
  rw [hplace c₁ hc₁ 1 hpath₁] at href₁
  exact ⟨hw, hne, s', h, hs.heap, hs.lengths _ List.mem_cons_self, href₀, href₁,
    hs.lengths ⟨[1], 65552, 0, [-1]⟩ (List.mem_of_getElem? (i := 2) rfl)⟩

end Machine

end Lpl
