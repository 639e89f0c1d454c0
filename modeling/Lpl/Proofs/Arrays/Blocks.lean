import Lpl.Machine.Step
import Mathlib.Data.List.Forall2

/-!
# Arrays in memory

An array is a block: its length and then its elements. The elements of an array that is not innermost
refer to its rows, which follow the block one after another, each with rows of its own behind it. So an
array with all its rows takes one stretch of memory, and where a part of it is follows from its sizes.

A write to an element leaves the array built as it was (`Built.write`), and different indices have
different elements (`elementAt_inj`).
-/

namespace Lpl.Machine

/-! ## Sizes and addresses -/

/-- The bytes of an array with the given sizes and of all its rows. -/
def arraySize (w : Int) : List Int32 → Int
  | [] => 0
  | n :: ns => (n.toInt + 1) * w + n.toInt * arraySize w ns

/-- The reference of row `i` of an array at `r` that has `n` rows of the sizes `ns`. -/
def rowAt (w r : Int) (n : Int32) (ns : List Int32) (i : Int) : Int :=
  r + (n.toInt + 1) * w + i * arraySize w ns

/-- The address of the element with the given indices of an array at `r`. -/
def elementAt (w : Int) : List Int32 → Int → List Int32 → Int
  | n :: m :: ns, r, i :: is => elementAt w (m :: ns) (rowAt w r n (m :: ns) i.toInt) is
  | _, r, i :: _ => r + (i.toInt + 1) * w
  | _, r, [] => r

/-- Sizes that can be allocated: none is negative, but for those that no row has. -/
def Sized : List Int32 → Prop
  | [] => False
  | [n] => 0 ≤ n.toInt
  | n :: m :: ns => 0 ≤ n.toInt ∧ (0 < n.toInt → Sized (m :: ns))

/-- There is an element with these indices. -/
def InBounds (is ns : List Int32) : Prop :=
  List.Forall₂ (fun i n => 0 ≤ i.toInt ∧ i.toInt < n.toInt) is ns

instance (is ns : List Int32) : Decidable (InBounds is ns) :=
  inferInstanceAs (Decidable (List.Forall₂ _ is ns))

/-- Memory has an array with the given sizes at `r`: lengths, references and rows are where they
belong. -/
def Built (w : Int) (mem : Memory) : List Int32 → Int → Prop
  | [], _ => True
  | [n], r => mem.read r = n
  | n :: m :: ns, r => mem.read r = n ∧ ∀ i : Int, 0 ≤ i → i < n.toInt →
      mem.read (r + (i + 1) * w) = .ofInt (rowAt w r n (m :: ns) i) ∧
        Built w mem (m :: ns) (rowAt w r n (m :: ns) i)

theorem sized_of_nonneg {ns : List Int32} (hne : ns ≠ []) (h : ∀ n ∈ ns, 0 ≤ n.toInt) : Sized ns := by
  induction ns with
  | nil => exact hne rfl
  | cons n ns ih =>
    obtain ⟨hn, hns⟩ := List.forall_mem_cons.1 h
    cases ns with
    | nil => exact hn
    | cons m ns => exact ⟨hn, fun _ => ih (List.cons_ne_nil _ _) hns⟩

section

variable {w r : Int} {n m : Int32} {ns is js : List Int32} {i j : Int}

theorem Sized.length_pos (h : Sized ns) : 0 < ns.length := by
  cases ns with
  | nil => cases h
  | cons n ns => exact Nat.succ_pos _

theorem Sized.length_nonneg (h : Sized (n :: ns)) : 0 ≤ n.toInt := by
  cases ns with
  | nil => exact h
  | cons m ns => exact h.1

theorem Sized.rows_nonneg (h : Sized (n :: ns)) (hns : Sized ns → 0 ≤ arraySize w ns) :
    0 ≤ n.toInt * arraySize w ns := by
  cases ns with
  | nil => exact Int.le_of_eq (Int.mul_zero _).symm
  | cons m ns =>
    rcases Int.lt_or_eq_of_le h.1 with hpos | hzero
    · exact Int.mul_nonneg h.1 (hns (h.2 hpos))
    · exact Int.le_of_eq (by rw [← hzero, Int.zero_mul])

theorem le_arraySize (hw : 0 < w) (h : Sized ns) : w ≤ arraySize w ns := by
  induction ns with
  | nil => cases h
  | cons n ns ih =>
    have hrows := h.rows_nonneg fun hns => Int.le_trans (Int.le_of_lt hw) (ih hns)
    have hblock : 0 ≤ n.toInt * w := Int.mul_nonneg h.length_nonneg (Int.le_of_lt hw)
    rw [arraySize, Int.add_mul, Int.one_mul]
    omega

/-- The block of an array is not longer than the array. -/
theorem block_le_arraySize (hw : 0 < w) (h : Sized (n :: ns)) :
    (n.toInt + 1) * w ≤ arraySize w (n :: ns) := by
  have hrows := h.rows_nonneg fun hns => Int.le_trans (Int.le_of_lt hw) (le_arraySize hw hns)
  rw [arraySize]
  omega

/-- A row is behind the block of its array, and before the end of the array. -/
theorem rowAt_bounds (hw : 0 < w) (h : Sized ns) (hi : 0 ≤ i) (hin : i < n.toInt) :
    r + (n.toInt + 1) * w ≤ rowAt w r n ns i ∧
      rowAt w r n ns i + arraySize w ns ≤ r + arraySize w (n :: ns) := by
  have hsize := le_arraySize hw h
  have hstart : 0 ≤ i * arraySize w ns := Int.mul_nonneg hi (by omega)
  have hend : (i + 1) * arraySize w ns ≤ n.toInt * arraySize w ns :=
    Int.mul_le_mul_of_nonneg_right (by omega) (by omega)
  rw [Int.add_mul, Int.one_mul] at hend
  constructor
  · rw [rowAt]
    omega
  · rw [rowAt, arraySize]
    omega

/-- A row ends before the next one. -/
theorem rowAt_lt (hw : 0 < w) (h : Sized ns) (hij : i < j) :
    rowAt w r n ns i + arraySize w ns ≤ rowAt w r n ns j := by
  have hsize := le_arraySize hw h
  have hle : (i + 1) * arraySize w ns ≤ j * arraySize w ns :=
    Int.mul_le_mul_of_nonneg_right (by omega) (by omega)
  rw [Int.add_mul, Int.one_mul] at hle
  rw [rowAt, rowAt]
  omega

/-- The words of a block are before its rows. -/
theorem slot_bounds (hw : 0 < w) (hi : 0 ≤ i) (hin : i < n.toInt) :
    r + w ≤ r + (i + 1) * w ∧ r + (i + 1) * w < r + (n.toInt + 1) * w := by
  have hstart : 1 * w ≤ (i + 1) * w := Int.mul_le_mul_of_nonneg_right (by omega) (Int.le_of_lt hw)
  have hend : (i + 1) * w < (n.toInt + 1) * w := Int.mul_lt_mul_of_pos_right (by omega) hw
  omega

/-- Elements are in their array, behind its first length. -/
theorem elementAt_bounds (hw : 0 < w) (hns : Sized ns) (h : InBounds is ns) :
    r + w ≤ elementAt w ns r is ∧ elementAt w ns r is < r + arraySize w ns := by
  induction ns generalizing r is with
  | nil => cases hns
  | cons n ns ih =>
    cases h with
    | @cons i _ is _ hi his =>
    cases ns with
    | nil =>
      have hslot := slot_bounds (r := r) hw hi.1 hi.2
      simpa [elementAt, arraySize] using hslot
    | cons m ns =>
      have hrows : Sized (m :: ns) := hns.2 (by omega)
      have hrow := rowAt_bounds (r := r) hw hrows hi.1 hi.2
      have hslot := slot_bounds (r := r) hw hi.1 hi.2
      have helement := ih (r := rowAt w r n (m :: ns) i.toInt) hrows his
      rw [elementAt]
      omega

/-- Different indices have different elements. -/
theorem elementAt_inj (hw : 0 < w) (hns : Sized ns) (his : InBounds is ns) (hjs : InBounds js ns)
    (h : elementAt w ns r is = elementAt w ns r js) : is = js := by
  induction ns generalizing r is js with
  | nil => cases hns
  | cons n ns ih =>
    cases his with
    | @cons i _ is _ hi his =>
    cases hjs with
    | @cons j _ js _ hj hjs =>
    cases ns with
    | nil =>
      cases his
      cases hjs
      have h : r + (i.toInt + 1) * w = r + (j.toInt + 1) * w := h
      have hij : i.toInt + 1 = j.toInt + 1 :=
        Int.eq_of_mul_eq_mul_right (Int.ne_of_gt hw) (Int.add_left_cancel h)
      rw [Int32.toInt_inj.1 (show i.toInt = j.toInt by omega)]
    | cons m ns =>
      have hrows : Sized (m :: ns) := hns.2 (by omega)
      have hinRow := elementAt_bounds (r := rowAt w r n (m :: ns) i.toInt) hw hrows his
      have hinRow' := elementAt_bounds (r := rowAt w r n (m :: ns) j.toInt) hw hrows hjs
      rw [elementAt, elementAt] at h
      -- Elements of different rows are apart.
      have hij : i.toInt = j.toInt := by
        rcases Int.lt_trichotomy i.toInt j.toInt with hlt | heq | hgt
        · have := rowAt_lt (r := r) (n := n) hw hrows hlt
          omega
        · exact heq
        · have := rowAt_lt (r := r) (n := n) hw hrows hgt
          omega
      obtain rfl := Int32.toInt_inj.1 hij
      rw [ih hrows his hjs h]

end

/-! ## Arrays that are built -/

namespace Built

variable {w r : Int} {mem mem' : Memory} {ns is : List Int32}

theorem read_length {n : Int32} (h : Built w mem (n :: ns) r) : mem.read r = n := by
  cases ns with
  | nil => exact h
  | cons m ns => exact h.1

/-- An array is built by the words from its start to its end. -/
theorem congr (hw : 0 < w) (hns : Sized ns) (h : Built w mem ns r)
    (heq : ∀ x, r ≤ x → x < r + arraySize w ns → mem'.read x = mem.read x) : Built w mem' ns r := by
  induction ns generalizing r with
  | nil => trivial
  | cons n ns ih =>
    have hsize := le_arraySize hw hns
    have hlength : mem'.read r = n := (heq r (Int.le_refl r) (by omega)).trans h.read_length
    cases ns with
    | nil => exact hlength
    | cons m ns =>
      refine ⟨hlength, fun i hi hin => ?_⟩
      have hrows : Sized (m :: ns) := hns.2 (by omega)
      have hrow := rowAt_bounds (r := r) hw hrows hi hin
      have hslot := slot_bounds (r := r) hw hi hin
      have hsize := le_arraySize hw hrows
      obtain ⟨href, hbuilt⟩ := h.2 i hi hin
      refine ⟨(heq _ (by omega) (by omega)).trans href, ih hrows hbuilt fun x hx hx' => ?_⟩
      exact heq x (by omega) (by omega)

/-- A write to an element is to no length or reference. -/
theorem write (hw : 0 < w) (hns : Sized ns) (h : Built w mem ns r) (his : InBounds is ns) (v : Int32) :
    Built w (mem.write (elementAt w ns r is) v) ns r := by
  induction ns generalizing r is with
  | nil => trivial
  | cons n ns ih =>
    have helement := elementAt_bounds (r := r) hw hns his
    have hlength : (mem.write (elementAt w (n :: ns) r is) v).read r = n :=
      (Memory.read_write_of_ne _ (by omega) v).trans h.read_length
    cases ns with
    | nil => exact hlength
    | cons m ns =>
      cases his with
      | @cons i _ is _ hi his =>
      have hrows : Sized (m :: ns) := hns.2 (by omega)
      have hrow := rowAt_bounds (r := r) hw hrows hi.1 hi.2
      have hinRow := elementAt_bounds (r := rowAt w r n (m :: ns) i.toInt) hw hrows his
      refine ⟨hlength, fun j hj hjn => ?_⟩
      have hslot := slot_bounds (r := r) hw hj hjn
      obtain ⟨href, hbuilt⟩ := h.2 j hj hjn
      rw [elementAt]
      refine ⟨(Memory.read_write_of_ne _ (by omega) v).trans href, ?_⟩
      -- The element is in the row of its first index, and the other rows are apart from that.
      by_cases hij : j = i.toInt
      · subst hij
        exact ih hrows hbuilt his
      · refine hbuilt.congr hw hrows fun x hx hx' => Memory.read_write_of_ne _ ?_ v
        rcases Int.lt_or_gt_of_ne hij with hlt | hgt
        · have := rowAt_lt (r := r) (n := n) hw hrows hlt
          omega
        · have := rowAt_lt (r := r) (n := n) hw hrows hgt
          omega

end Built

end Lpl.Machine
