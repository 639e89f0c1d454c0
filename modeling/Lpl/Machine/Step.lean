import Lpl.Machine.Image

/-!
# The stack machine

Below `stackTop` the stack grows toward lower addresses; the heap grows upward from `heapBase`.
An array is its length followed by its elements, and a reference is the address of the length.

- `calli` pops the number of arguments, pushes the return address and the frame pointer, and
  the frame pointer is then where the stack pointer is.
- `ret` pops the number of words of the frame and the value, gives up the frame with its two
  linkage words, and pushes the value. It checks that the stack is one word higher than before
  the arguments were pushed.

An instruction that faults has done what comes before the fault, so the state at a stop shows
it.
-/

namespace Lpl

namespace Machine

/-- Where the heap starts. -/
def heapBase : Int := 0x10000

/-- Where the stack starts; it grows downward. -/
def stackTop : Int := 0x100000

/-- Why a run stops before `halt`. -/
inductive Fault where
  | stackUnderflow (line : Nat)
  | ranOff (line : Nat)
  | unknownLabel (label : String)
  | unknownWord (label : String)
  | divisionByZero
  | nullIndex
  | outOfBounds (index length : Int32)
  | nullLength
  | negativeSize (size : Int32)
  /-- An allocation without any size. -/
  | noSizes
  | returnWithoutCall
  | unbalancedReturn (depth expected : Int)
  | dataExecuted
  | stepLimit
deriving DecidableEq, Repr

/-- A number of words as an unsigned 64-bit number: below zero it wraps around. -/
def unsigned (n : Int) : Nat := (n % 18446744073709551616).toNat

/-- The fault in words. -/
def Fault.text : Fault → String
  | stackUnderflow n => "stack underflow at instruction " ++ toString n
  | ranOff n => "ran off the end of the code at " ++ toString n
  | unknownLabel l => "jump to unknown label " ++ l
  | unknownWord l => "unknown data word " ++ l
  | divisionByZero => "division by zero"
  | nullIndex => "indexing a null array"
  | outOfBounds i n => "index " ++ toString i ++ " out of bounds for length " ++ toString n
  | nullLength => "length of a null array"
  | negativeSize n => "negative array size " ++ toString n
  | noSizes => "array without a size"
  | returnWithoutCall => "ret without a call"
  | unbalancedReturn depth expected =>
    "call returned with stack depth " ++ toString (unsigned depth) ++ ", expected " ++
      toString (unsigned expected)
  | dataExecuted => "executed the data segment"
  | stepLimit => "step limit exceeded"

/-- What changes while code runs. -/
structure State where
  memory : Memory
  /-- The first free address of the heap. -/
  heap : Int := heapBase
  /-- The address of the topmost word of the stack. -/
  sp : Int := stackTop
  /-- The frame pointer. -/
  fp : Int := stackTop
  /-- The line to be executed next. -/
  pc : Nat := 0
  /-- The depth of the stack before the arguments of each open call, the innermost first. -/
  callDepths : List Int := []
  output : String := ""

/-- The number of words on the stack. -/
def State.depth (s : State) (w : Int) : Int := (stackTop - s.sp).tdiv w

/-- Changes the state, or stops with a fault in the state of that moment. -/
abbrev Exec := EStateM Fault State

section

variable (img : Image)

/-- Pushes a word. -/
def push (v : Int32) : Exec Unit := fun s =>
  .ok () { s with sp := s.sp - img.wordSize, memory := s.memory.write (s.sp - img.wordSize) v }

/-- Pops a word. -/
def pop : Exec Int32 := fun s =>
  if stackTop ≤ s.sp then .error (.stackUnderflow s.pc) s
  else .ok (s.memory.read s.sp) { s with sp := s.sp + img.wordSize }

/-- Pops `n` words in front of those in `vs`, so that the last one pushed stays the last. -/
def popMany : Nat → List Int32 → Exec (List Int32)
  | 0, vs => return vs
  | n + 1, vs => do
    let v ← pop img
    popMany n (v :: vs)

/-- The word at an address. -/
def read (a : Int) : Exec Int32 := fun s => .ok (s.memory.read a) s

/-- Writes a word. -/
def write (a : Int) (v : Int32) : Exec Unit := fun s =>
  .ok () { s with memory := s.memory.write a v }

/-- Appends to the output. -/
def print (text : String) : Exec Unit := fun s =>
  .ok () { s with output := s.output ++ text }

/-- The line that a label stands for. -/
def placeOf (label : String) : Exec Nat :=
  match img.places[label]? with
  | some n => pure n
  | none => throw (.unknownLabel label)

/-- The address of a data word. -/
def addressOf (label : String) : Exec Int :=
  match img.addresses[label]? with
  | some a => pure a
  | none => throw (.unknownWord label)

/-! ## Arrays -/

/-- Takes the block of an array with the given number of elements from the heap and writes its
length. The result is its reference. -/
def block (length : Int32) : Exec Int := fun s =>
  .ok s.heap { s with
    heap := s.heap + (length.toInt + 1) * img.wordSize
    memory := s.memory.write s.heap length }

/-- Writes references to `n` new blocks from address `a` on. -/
def fill (new : Exec Int) : Int → Nat → Exec Unit
  | _, 0 => pure ()
  | a, n + 1 => do
    let r ← new
    write a (.ofInt r)
    fill new (a + img.wordSize) n

/-- Allocates an array with the given sizes: the elements of an array that is not innermost are
references to arrays of their own. -/
def allocate : List Int32 → Exec Int
  | [] => throw .noSizes
  | [n] => if n.toInt < 0 then throw (.negativeSize n) else block img n
  | n :: ns => do
    if n.toInt < 0 then throw (.negativeSize n)
    let r ← block img n
    fill img (allocate ns) (r + img.wordSize) n.toInt.toNat
    return r

/-- The address of an element. -/
def elementAddress (reference index : Int32) : Exec Int32 := do
  if reference = 0 then throw .nullIndex
  let length ← read reference.toInt
  if index.toInt < 0 ∨ length.toInt ≤ index.toInt then throw (.outOfBounds index length)
  return .ofInt (reference.toInt + (index.toInt + 1) * img.wordSize)

/-! ## Calls -/

/-- Opens a frame for a call with the given number of arguments that goes on at line `next`. -/
def enterFrame (argc : Int32) (next : Nat) : Exec Unit := do
  modify fun s => { s with callDepths := (s.depth img.wordSize - argc.toInt) :: s.callDepths }
  push img (.ofNat next)
  push img (.ofInt (← get).fp)
  modify fun s => { s with fp := s.sp }

/-- Gives up the frame with the given number of words and leaves `value` on the stack. The
result is the line to go on at. -/
def leaveFrame (words value : Int32) : Exec Nat := do
  let fp := (← get).fp
  let callerFp ← read fp
  let next ← read (fp + img.wordSize)
  modify fun s => { s with sp := s.sp + (words.toInt + 2) * img.wordSize, fp := callerFp.toInt }
  push img value
  return unsigned next.toInt

/-- Closes the innermost call: the stack is one word higher than before its arguments. -/
def closeCall : Exec Unit := fun s =>
  match s.callDepths with
  | [] => .error .returnWithoutCall s
  | before :: rest =>
    if s.depth img.wordSize = before + 1 then .ok () { s with callDepths := rest }
    else .error (.unbalancedReturn (s.depth img.wordSize) (before + 1)) { s with callDepths := rest }

/-! ## Instructions -/

/-- The character with the given number, or a question mark if there is none. -/
def charOf (v : Int32) : Char :=
  if v.toUInt32.toNat.isValidChar then .ofNat v.toUInt32.toNat else '?'

/-- Pops two words, the right one first, and pushes what `f` makes of them. -/
def combine (f : Int32 → Int32 → Exec Int32) : Exec Unit := do
  let b ← pop img
  let a ← pop img
  push img (← f a b)

/-- Pops a word and pushes 1 if it passes the test and 0 if not. -/
def test (p : Int32 → Bool) : Exec Unit := do
  let v ← pop img
  push img (if p v then 1 else 0)

/-- Executes one line. The result is the line to go on at, `next` unless it jumps, or nothing
after `halt`. -/
def execute (next : Nat) : Instruction → Exec (Option Nat)
  | .push v => do
    push img v
    return some next
  | .getFp => do
    push img (.ofInt (← get).fp)
    return some next
  | .getDp => do
    push img 0
    return some next
  | .load => do
    let a ← pop img
    push img (← read a.toInt)
    return some next
  | .store => do
    let v ← pop img
    let a ← pop img
    write a.toInt v
    return some next
  | .loadi l => do
    let a ← addressOf img l
    push img (← read a)
    return some next
  | .storei l => do
    let a ← addressOf img l
    write a (← pop img)
    return some next
  | .add => do
    combine img fun a b => return a + b
    return some next
  | .sub => do
    combine img fun a b => return a - b
    return some next
  | .mul => do
    combine img fun a b => return a * b
    return some next
  | .div => do
    combine img fun a b => if b = 0 then throw .divisionByZero else return a / b
    return some next
  | .testZ => do
    test img fun v => v = 0
    return some next
  | .testN => do
    test img fun v => v.toInt < 0
    return some next
  | .jump l => do
    return some (← placeOf img l)
  | .jumpIfZero l => do
    let v ← pop img
    if v = 0 then return some (← placeOf img l) else return some next
  | .call l => do
    let argc ← pop img
    enterFrame img argc next
    return some (← placeOf img l)
  | .ret => do
    let words ← pop img
    let value ← pop img
    let caller ← leaveFrame img words value
    closeCall img
    return some caller
  | .halt => return none
  | .arrayIndex => do
    let index ← pop img
    let reference ← pop img
    push img (← elementAddress img reference index)
    return some next
  | .arrayLength => do
    let reference ← pop img
    if reference = 0 then throw .nullLength
    push img (← read reference.toInt)
    return some next
  | .newArray n => do
    let sizes ← popMany img n []
    push img (.ofInt (← allocate img sizes))
    return some next
  | .outDec => do
    let v ← pop img
    print (toString v)
    return some next
  | .outChar => do
    let v ← pop img
    print (String.singleton (charOf v))
    return some next
  | .label _ => return some next
  | .data | .word .. => throw .dataExecuted

/-- Executes the next line, and says whether to go on. -/
def step : Exec Bool := fun s =>
  match img.code[s.pc]? with
  | none => .error (.ranOff s.pc) s
  | some i =>
    match execute img (s.pc + 1) i s with
    | .ok (some n) s => .ok true { s with pc := n }
    | .ok none s => .ok false s
    | .error e s => .error e s

/-- Runs until `halt`, for at most `n` lines. -/
def runFor : Nat → Exec Unit
  | 0, s => .error .stepLimit s
  | n + 1, s =>
    match step img s with
    | .ok true s => runFor n s
    | .ok false s => .ok () s
    | .error e s => .error e s

end

end Machine

end Lpl
