import Lpl.Numeral
import Lpl.Settings

/-!
# Command line options

`[-o <path>] [--word-size <n>] [--shadowing allow|warn|reject] [-v|-vv] <input>`, in any order.
The last value of an option counts, there is exactly one input, and the word behind `-o`,
`--word-size` or `--shadowing` is its value whatever it looks like.
-/

namespace Lpl.Cli

/-- What a command line asks for. -/
structure Options where
  input : String
  /-- Where the assembly goes; the standard output if nowhere else. -/
  output : Option String
  settings : Settings
  /-- Events shown: 0 information and warnings, 1 debugging too, 2 everything. -/
  verbosity : Nat
deriving DecidableEq, Repr

/-- Why a command line makes no sense. -/
inductive UsageError where
  | noOutputPath
  | noWordSize
  | noPolicy
  | badWordSize (value : String)
  | badPolicy (error : UnknownShadowing)
  | unknownOption (option : String)
  | secondInput
  | noInput
deriving DecidableEq, Repr

/-- The error in words. -/
def UsageError.text : UsageError → String
  | noOutputPath => "-o needs an output path"
  | noWordSize => "--word-size needs a value"
  | noPolicy => "--shadowing needs a policy"
  | badWordSize v => "invalid word size '" ++ v ++ "' (expected 1..=64)"
  | badPolicy e => e.message
  | unknownOption o => "unknown option '" ++ o ++ "'"
  | secondInput => "only one input file can be compiled at a time"
  | noInput => "No input file provided"

namespace Options

/-- What has been read of a command line. -/
structure Draft where
  input : Option String := none
  output : Option String := none
  settings : Settings := {}
  verbosity : Nat := 0
deriving DecidableEq, Repr

/-- The value of `--word-size`: a 32-bit numeral from 1 to the largest word size. -/
def wordSize (value : String) : Except UsageError Int :=
  match Numeral.read? Numeral.half32 value with
  | some n => if 1 ≤ n ∧ n ≤ Settings.maxWordSize then .ok n else .error (.badWordSize value)
  | none => .error (.badWordSize value)

/-- The value of `--shadowing`. -/
def shadowing (value : String) : Except UsageError Shadowing :=
  (Shadowing.ofName value).mapError .badPolicy

/-- A word of its own: a flag, or the input. -/
def Draft.word (d : Draft) (arg : String) : Except UsageError Draft :=
  if arg = "-v" then .ok { d with verbosity := max d.verbosity 1 }
  else if arg = "-vv" then .ok { d with verbosity := 2 }
  else if arg.toList.head? = some '-' then .error (.unknownOption arg)
  else if d.input.isSome then .error .secondInput
  else .ok { d with input := some arg }

/-- Reads the words of a command line in order. -/
def Draft.words (d : Draft) : List String → Except UsageError Draft
  | [] => .ok d
  | ["-o"] => .error .noOutputPath
  | "-o" :: path :: args => words { d with output := some path } args
  | ["--word-size"] => .error .noWordSize
  | "--word-size" :: value :: args => do
    words { d with settings := { d.settings with wordSize := ← wordSize value } } args
  | ["--shadowing"] => .error .noPolicy
  | "--shadowing" :: value :: args => do
    words { d with settings := { d.settings with shadowing := ← shadowing value } } args
  | arg :: args => do
    words (← d.word arg) args

/-- The options of a command line, without the program's name. -/
def parse (args : List String) : Except UsageError Options := do
  let d ← Draft.words {} args
  match d.input with
  | some input => return ⟨input, d.output, d.settings, d.verbosity⟩
  | none => throw .noInput

end Options

end Lpl.Cli
