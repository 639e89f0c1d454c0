import Lpl.Code.Instruction
import Lpl.Machine.Memory

/-!
# Loaded code

Code as the machine holds it: the lines by number, the line of each label, and the address of
each data word. Data words follow one another from address 0. A label that is defined more than
once stands for its last definition.
-/

namespace Lpl

/-- Code that is ready to run. -/
structure Image where
  code : Array Instruction
  /-- The size of a word in bytes. -/
  wordSize : Int
  /-- The line number of each label. -/
  places : Std.HashMap String Nat
  /-- The address of each data word. -/
  addresses : Std.HashMap String Int

namespace Image

/-- The label and initial value of each data word, in order. -/
def dataWords (code : Assembly) : List (String × Int32) :=
  code.filterMap fun
    | .word l v => some (l, v)
    | _ => none

/-- The line number of each label. -/
def placesOf (code : Assembly) : Std.HashMap String Nat :=
  code.zipIdx.foldl (fun m (i, n) =>
    match i with
    | .label l => m.insert l n
    | _ => m) ∅

/-- The address of each data word, for words of `w` bytes. -/
def addressesOf (w : Int) (code : Assembly) : Std.HashMap String Int :=
  (dataWords code).zipIdx.foldl (fun m ((l, _), k) => m.insert l (k * w)) ∅

/-- Loads code for words of `w` bytes. -/
def ofAssembly (w : Int) (code : Assembly) : Image :=
  ⟨code.toArray, w, placesOf code, addressesOf w code⟩

/-- The address of a data word, or 0 for a label that names none. -/
def address (img : Image) (label : String) : Int := img.addresses.getD label 0

/-- Memory with the data words at their addresses. -/
def memory (img : Image) : Memory :=
  (dataWords img.code.toList).foldl (fun m (l, v) => m.write (img.address l) v) .empty

end Image

end Lpl
