import Std.Data.HashMap

/-!
# Memory

Memory maps addresses in bytes to 32-bit words. An address that was never written holds 0, and
addresses are used as they are, aligned or not: a word at an address is one cell.
-/

namespace Lpl

/-- Words by address. -/
structure Memory where
  cells : Std.HashMap Int Int32

namespace Memory

/-- No word has been written. -/
def empty : Memory := ⟨∅⟩

/-- The word at an address. -/
def read (m : Memory) (a : Int) : Int32 := m.cells.getD a 0

/-- Writes a word. -/
def write (m : Memory) (a : Int) (v : Int32) : Memory := ⟨m.cells.insert a v⟩

@[simp] theorem read_empty (a : Int) : empty.read a = 0 := by
  simp [empty, read]

theorem read_write (m : Memory) (a b : Int) (v : Int32) :
    (m.write a v).read b = if a = b then v else m.read b := by
  simp [read, write, Std.HashMap.getD_insert]

@[simp] theorem read_write_self (m : Memory) (a : Int) (v : Int32) :
    (m.write a v).read a = v := by
  simp [read_write]

theorem read_write_of_ne (m : Memory) {a b : Int} (h : a ≠ b) (v : Int32) :
    (m.write a v).read b = m.read b := by
  simp [read_write, h]

end Memory

end Lpl
