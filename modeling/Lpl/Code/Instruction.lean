/-!
# Assembly code

The instructions of the stack machine SSM, with the labels and data words that stand between
them in a listing. A listing has one line for each of them.
-/

namespace Lpl

/-- A line of assembly code. -/
inductive Instruction where
  | push (value : Int32)
  /-- Push the frame pointer. -/
  | getFp
  /-- Push the data pointer. -/
  | getDp
  | load
  | store
  /-- Push the data word with the given label. -/
  | loadi (label : String)
  /-- Pop into the data word with the given label. -/
  | storei (label : String)
  | add | sub | mul | div
  | testZ | testN
  | jump (label : String)
  | jumpIfZero (label : String)
  | call (label : String)
  | ret
  | halt
  | arrayIndex
  | arrayLength
  /-- Allocate an array of arrays with the given number of sizes on the stack. -/
  | newArray (dimensions : Nat)
  /-- Write a number. -/
  | outDec
  /-- Write a character. -/
  | outChar
  /-- A place in the code that jumps and calls name. -/
  | label (name : String)
  /-- The start of the data segment. -/
  | data
  /-- A word of the data segment. -/
  | word (label : String) (value : Int32)
deriving DecidableEq, Repr, Inhabited

namespace Instruction

/-- The line of a listing. -/
def text : Instruction → String
  | push v => "push " ++ toString v
  | getFp => "get_fp"
  | getDp => "get_dp"
  | load => "load"
  | store => "store"
  | loadi l => "loadi " ++ l
  | storei l => "storei " ++ l
  | add => "add"
  | sub => "sub"
  | mul => "mul"
  | div => "div"
  | testZ => "test_z"
  | testN => "test_n"
  | jump l => "jumpi " ++ l
  | jumpIfZero l => "jumpi_z " ++ l
  | call l => "calli " ++ l
  | ret => "ret"
  | halt => "halt"
  | arrayIndex => "array_index"
  | arrayLength => "array_length"
  | newArray n => "new_array " ++ toString n
  | outDec => "sysc OUT_DEC"
  | outChar => "sysc OUT_CHAR"
  | label l => l ++ ":"
  | data => ".data"
  | word l v => l ++ ": " ++ toString v

/-- The label that a line defines, of code or of a data word. -/
def definedLabel? : Instruction → Option String
  | label l | word l _ => some l
  | _ => none

end Instruction

/-- Assembly code, line by line. -/
abbrev Assembly := List Instruction

namespace Assembly

/-- The listing: every line ends with a newline. -/
def text (code : Assembly) : String :=
  String.join (code.map fun i => i.text ++ "\n")

/-- The labels that are defined, in order, repeats kept. -/
def labels (code : Assembly) : List String :=
  code.filterMap Instruction.definedLabel?

end Assembly

end Lpl
