import Lpl.Machine.Step

/-!
# Runs

A run loads code, executes it from its first line and reports where it stopped: what was
written, how many words are on the stack, and the data words.
-/

namespace Lpl.Machine

/-- The most lines that a run executes. -/
def stepLimit : Nat := 1000000

/-- Where a run stopped. -/
structure Report where
  fault : Option Fault
  output : String
  depth : Nat
  /-- The value of each data word. -/
  words : List (String × Int32)

/-- The state before the first line. -/
def initial (img : Image) : State := { memory := img.memory }

/-- What is to be seen of a state. -/
def reportOf (img : Image) (fault : Option Fault) (s : State) : Report where
  fault := fault
  output := s.output
  depth := unsigned (s.depth img.wordSize)
  words := (Image.dataWords img.code.toList).map fun (l, _) =>
    (l, s.memory.read (img.address l))

/-- Runs code with words of `w` bytes. -/
def run (w : Int) (code : Assembly) : Report :=
  let img := Image.ofAssembly w code
  match runFor img stepLimit (initial img) with
  | .ok _ s => reportOf img none s
  | .error e s => reportOf img (some e) s

end Lpl.Machine
