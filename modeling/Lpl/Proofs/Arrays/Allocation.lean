import Lpl.Proofs.Arrays.Blocks
import Lpl.Proofs.Execution

/-!
# Allocation of arrays

**Theorem (`allocate_eq`).** Allocation of an array with sizes that can be allocated returns the old end
of the heap, takes the bytes of the array and all its rows, and builds it there. The elements of the
innermost arrays and all words outside keep their values.

The block of an array is taken before its rows, and its references are written between these. `Rows` says
what the loop over the rows has done after some of them.
-/

namespace Lpl.Machine

/-- The array with the sizes `ns` has been built at `r`: elements are left as they were, and so is all
outside. -/
structure Made (w : Int) (ns : List Int32) (r : Int) (mem mem' : Memory) : Prop where
  built : Built w mem' ns r
  elements : ∀ is, InBounds is ns → mem'.read (elementAt w ns r is) = mem.read (elementAt w ns r is)
  frame : ∀ x, x < r ∨ r + arraySize w ns ≤ x → mem'.read x = mem.read x

/-- As many as `n` rows with the sizes `ns` have been built from `h` on, and from `a` on there are
references to them. -/
structure Rows (w : Int) (ns : List Int32) (a h : Int) (n : Nat) (mem mem' : Memory) : Prop where
  built : ∀ i : Int, 0 ≤ i → i < n → mem'.read (a + i * w) = .ofInt (h + i * arraySize w ns) ∧
    Built w mem' ns (h + i * arraySize w ns)
  elements : ∀ (i : Int) (is : List Int32), 0 ≤ i → i < n → InBounds is ns →
    mem'.read (elementAt w ns (h + i * arraySize w ns) is) =
      mem.read (elementAt w ns (h + i * arraySize w ns) is)
  frame : ∀ x, x < h ∨ h + n * arraySize w ns ≤ x → x < a ∨ a + n * w ≤ x → mem'.read x = mem.read x

section

variable {w a h : Int} {ns : List Int32} {mem mem₁ mem' : Memory}

theorem Rows.zero (w : Int) (ns : List Int32) (a h : Int) (mem : Memory) :
    Rows w ns a h 0 mem mem where
  built i hi hin := by omega
  elements i _ hi hin := by omega
  frame _ _ _ := rfl

/-- One row more, before the others. -/
theorem Rows.succ {n : Nat} (hw : 0 < w) (hns : Sized ns) (ha : a + (n + 1 : Nat) * w ≤ h)
    (hrow : Made w ns h mem mem₁)
    (hrest : Rows w ns (a + w) (h + arraySize w ns) n (mem₁.write a (.ofInt h)) mem') :
    Rows w ns a h (n + 1) mem mem' := by
  have hsize := le_arraySize hw hns
  have hrefs : 0 ≤ (n : Int) * w := Int.mul_nonneg (Int.natCast_nonneg n) (Int.le_of_lt hw)
  have hrows : 0 ≤ (n : Int) * arraySize w ns := Int.mul_nonneg (Int.natCast_nonneg n) (by omega)
  rw [Int.natCast_add, Int.add_mul, Int.natCast_one, Int.one_mul] at ha
  -- What the other rows leave of the first row, of its reference, and of all before.
  have hfirst : ∀ x, x ≠ a → h ≤ x → x < h + arraySize w ns → mem'.read x = mem₁.read x := by
    intro x hx hle hlt
    rw [hrest.frame x (by omega) (by omega), Memory.read_write_of_ne _ (Ne.symm hx)]
  have hshift : ∀ i : Int, h + arraySize w ns + (i - 1) * arraySize w ns = h + i * arraySize w ns := by
    intro i
    rw [Int.sub_mul, Int.one_mul]
    omega
  refine ⟨fun i hi hin => ?_, fun i is hi hin his => ?_, fun x hx hxa => ?_⟩
  · by_cases hzero : i = 0
    · subst hzero
      rw [Int.zero_mul, Int.zero_mul, Int.add_zero, Int.add_zero]
      refine ⟨?_, hrow.built.congr hw hns fun x hx hx' => hfirst x (by omega) hx hx'⟩
      rw [hrest.frame a (by omega) (by omega), Memory.read_write_self]
    · have hrow' := hrest.built (i - 1) (by omega) (by omega)
      rw [hshift, Int.sub_mul, Int.one_mul] at hrow'
      rwa [show a + w + (i * w - w) = a + i * w by omega] at hrow'
  · by_cases hzero : i = 0
    · subst hzero
      rw [Int.zero_mul, Int.add_zero]
      have hin := elementAt_bounds (r := h) hw hns his
      rw [hfirst _ (by omega) (by omega) hin.2, hrow.elements is his]
    · have helement := hrest.elements (i - 1) is (by omega) (by omega) his
      have hin := elementAt_bounds (r := h + i * arraySize w ns) hw hns his
      have hle : 1 * arraySize w ns ≤ i * arraySize w ns :=
        Int.mul_le_mul_of_nonneg_right (by omega) (by omega)
      rw [hshift] at helement
      rw [helement, Memory.read_write_of_ne _ (by omega), hrow.frame _ (by omega)]
  · rw [Int.natCast_add, Int.add_mul, Int.natCast_one, Int.one_mul] at hx hxa
    rw [hrest.frame x (by omega) (by omega), Memory.read_write_of_ne _ (by omega),
      hrow.frame x (by omega)]

end

section

variable {img : Image}

/-- The state once an array of the given size has been taken from the heap, with `mem` as its memory. -/
def State.take (size : Int) (mem : Memory) (s : State) : State :=
  { s with heap := s.heap + size, memory := mem }

theorem State.take_store_take (x y a : Int) (v : Int32) (mem mem' : Memory) (s : State) :
    ((s.take x mem).store a v).take y mem' = s.take (x + y) mem' := by
  simp [State.take, State.store, Int.add_assoc]

theorem write_eq (a : Int) (v : Int32) (s : State) : write a v s = .ok () (s.store a v) := rfl

/-- The loop over the rows of an array, where `P` is what it takes to make one row and `Q` what the loop
makes of rows. -/
theorem fill_induction {new : Exec Int} {size : Int} {P : Int → Memory → Memory → Prop}
    {Q : Nat → Int → Int → Memory → Memory → Prop} (zero : ∀ a h mem, Q 0 a h mem mem) {n : Nat}
    (succ : ∀ {n : Nat} {a h : Int} {mem mem₁ mem' : Memory}, P h mem mem₁ →
      Q n (a + img.wordSize) (h + size) (mem₁.write a (.ofInt h)) mem' → Q (n + 1) a h mem mem')
    (hnew : 0 < n → ∀ s : State, ∃ mem, new s = .ok s.heap (s.take size mem) ∧ P s.heap s.memory mem)
    (a : Int) (s : State) :
    ∃ mem, fill img new a n s = .ok () (s.take (n * size) mem) ∧ Q n a s.heap s.memory mem := by
  induction n generalizing a s with
  | zero =>
    refine ⟨s.memory, ?_, zero _ _ _⟩
    simp [fill, State.take, pure, EStateM.pure]
  | succ n ih =>
    have hrow := hnew (Nat.succ_pos n)
    obtain ⟨mem₁, hmem₁, hfirst⟩ := hrow s
    obtain ⟨mem, hmem, hrest⟩ := ih (fun _ => hrow) (a + img.wordSize)
      ((s.take size mem₁).store a (.ofInt s.heap))
    refine ⟨mem, ?_, succ hfirst hrest⟩
    refine (bind_ok hmem₁).trans ((bind_ok (write_eq _ _ _)).trans (hmem.trans ?_))
    rw [State.take_store_take, Int.natCast_add, Int.add_mul, Int.natCast_one, Int.one_mul, Int.add_comm]

theorem block_eq (n : Int32) (s : State) :
    block img n s = .ok s.heap
      (s.take ((n.toInt + 1) * img.wordSize) (s.memory.write s.heap n)) := rfl

/-- The block of an innermost array is all of it. -/
theorem made_single {w : Int} {n : Int32} (hw : 0 < w) (hn : Sized [n]) (r : Int) (mem : Memory) :
    Made w [n] r mem (mem.write r n) where
  built := Memory.read_write_self _ _ _
  elements is his := by
    have hin := elementAt_bounds (r := r) hw hn his
    exact Memory.read_write_of_ne _ (by omega) _
  frame x hx := by
    have hsize := le_arraySize hw hn
    exact Memory.read_write_of_ne _ (by omega) _

/-- A block and the rows behind it are an array. -/
theorem Rows.made {w r : Int} {n m : Int32} {ns : List Int32} {mem mem' : Memory} (hw : 0 < w)
    (hns : Sized (n :: m :: ns))
    (h : Rows w (m :: ns) (r + w) (r + (n.toInt + 1) * w) n.toInt.toNat (mem.write r n) mem') :
    Made w (n :: m :: ns) r mem mem' := by
  have hcount : (n.toInt.toNat : Int) = n.toInt := Int.toNat_of_nonneg hns.length_nonneg
  have hrefs : 0 ≤ n.toInt * w := Int.mul_nonneg hns.length_nonneg (Int.le_of_lt hw)
  have hblock := block_le_arraySize hw hns
  have hframe := h.frame
  rw [hcount] at hframe
  have hsplit : (n.toInt + 1) * w = n.toInt * w + w := by rw [Int.add_mul, Int.one_mul]
  refine ⟨⟨?_, fun i hi hin => ?_⟩, fun is his => ?_, fun x hx => ?_⟩
  · rw [hframe r (by omega) (by omega), Memory.read_write_self]
  · have hrow := h.built i hi (by omega)
    rwa [show r + w + i * w = r + (i + 1) * w by rw [Int.add_mul, Int.one_mul]; omega] at hrow
  · cases his with
    | @cons i _ is _ hi his =>
    have hrows : Sized (m :: ns) := hns.2 (by omega)
    have hrow := rowAt_bounds (r := r) hw hrows hi.1 hi.2
    have hin := elementAt_bounds (r := rowAt w r n (m :: ns) i.toInt) hw hrows his
    have helement := h.elements i.toInt is hi.1 (by omega) his
    rw [← rowAt] at helement
    rw [elementAt, helement, Memory.read_write_of_ne _ (by omega)]
  · rw [arraySize] at hx hblock
    rw [hframe x (by omega) (by omega), Memory.read_write_of_ne _ (by omega)]

/-- **Induction over allocation.** Sizes that can be allocated are, and the array is at the end of the
heap. `P` is what holds of the array, and `Q` of the rows that the loop over them has made so far. -/
theorem allocate_induction {P : List Int32 → Int → Memory → Memory → Prop}
    {Q : List Int32 → Nat → Int → Int → Memory → Memory → Prop}
    (innermost : ∀ {n : Int32}, Sized [n] → ∀ r mem, P [n] r mem (mem.write r n))
    (zero : ∀ ns a h mem, Q ns 0 a h mem mem)
    (succ : ∀ {ns : List Int32} {n : Nat} {a h : Int} {mem mem₁ mem' : Memory}, Sized ns →
      P ns h mem mem₁ → Q ns n (a + img.wordSize) (h + arraySize img.wordSize ns)
        (mem₁.write a (.ofInt h)) mem' → Q ns (n + 1) a h mem mem')
    (array : ∀ {n m : Int32} {ns : List Int32} {r : Int} {mem mem' : Memory}, Sized (n :: m :: ns) →
      Q (m :: ns) n.toInt.toNat (r + img.wordSize) (r + (n.toInt + 1) * img.wordSize)
        (mem.write r n) mem' → P (n :: m :: ns) r mem mem')
    {ns : List Int32} (hns : Sized ns) (s : State) :
    ∃ mem, allocate img ns s = .ok s.heap (s.take (arraySize img.wordSize ns) mem) ∧
      P ns s.heap s.memory mem := by
  induction ns generalizing s with
  | nil => cases hns
  | cons n ns ih =>
    have hn : ¬ n.toInt < 0 := Int.not_lt.2 hns.length_nonneg
    cases ns with
    | nil =>
      refine ⟨_, ?_, innermost hns _ _⟩
      rw [allocate, if_neg hn, block_eq]
      simp [arraySize]
    | cons m ns =>
      have hcount : (n.toInt.toNat : Int) = n.toInt := Int.toNat_of_nonneg hns.length_nonneg
      have hrow : 0 < n.toInt.toNat → ∀ s : State, ∃ mem,
          allocate img (m :: ns) s = .ok s.heap (s.take (arraySize img.wordSize (m :: ns)) mem) ∧
            Sized (m :: ns) ∧ P (m :: ns) s.heap s.memory mem := by
        intro hpos s
        obtain ⟨mem, hmem, hP⟩ := ih (hns.2 (by omega)) s
        exact ⟨mem, hmem, hns.2 (by omega), hP⟩
      obtain ⟨mem, hmem, hrows⟩ := fill_induction
        (P := fun h mem mem' => Sized (m :: ns) ∧ P (m :: ns) h mem mem') (zero (m :: ns))
        (fun h => succ h.1 h.2) hrow
        (s.heap + img.wordSize) (s.take ((n.toInt + 1) * img.wordSize) (s.memory.write s.heap n))
      refine ⟨mem, ?_, array hns hrows⟩
      rw [allocate, if_neg hn]
      · refine (bind_ok (block_eq n s)).trans ((bind_ok hmem).trans ?_)
        rw [hcount]
        simp [State.take, arraySize, Int.add_assoc, pure, EStateM.pure]
      · simp

/-- Allocation builds an array at the end of the heap. -/
theorem allocate_eq (hw : 0 < img.wordSize) {ns : List Int32} (hns : Sized ns) (s : State) :
    ∃ mem, allocate img ns s = .ok s.heap (s.take (arraySize img.wordSize ns) mem) ∧
      Made img.wordSize ns s.heap s.memory mem := by
  -- The references are written before the rows, so the loop needs room for them there.
  refine allocate_induction (Q := fun ns n a h mem mem' => a + n * img.wordSize ≤ h →
    Rows img.wordSize ns a h n mem mem') (made_single hw) (fun ns a h mem _ => .zero _ ns a h mem)
    ?_ ?_ hns s
  · intro ns n a h mem mem₁ mem' hns hrow hrest ha
    have hsize := le_arraySize hw hns
    have hle := ha
    rw [Int.natCast_add, Int.add_mul, Int.natCast_one, Int.one_mul] at hle
    exact .succ hw hns ha hrow (hrest (by omega))
  · intro n m ns r mem mem' hns hrows
    refine (hrows ?_).made hw hns
    rw [Int.toNat_of_nonneg hns.length_nonneg, Int.add_mul, Int.one_mul]
    omega

end

end Lpl.Machine
