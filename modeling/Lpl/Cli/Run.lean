import Lpl.Cli.Options
import Lpl.Compilation

/-!
# The command line program

Reads a file, compiles it and writes the assembly to a file or to the standard output. Messages
and log lines go to the standard error, in the order in which they come about. The exit status
is 0 if all went well and 1 otherwise.

What the program needs of the system around it is a `Host`.
-/

namespace Lpl.Cli

/-- Why a file cannot be read. -/
inductive ReadFault where
  | missing
  /-- It is there; the system says in its own words what is wrong. -/
  | failed (text : String)
deriving DecidableEq, Repr

/-- Files and the two standard streams. -/
class Host (m : Type → Type) where
  readFile (path : String) : m (Except ReadFault ByteArray)
  /-- Replaces the contents of a file, or says in the system's words why not. -/
  writeFile (path text : String) : m (Except String Unit)
  /-- Writes to the standard output. -/
  out (text : String) : m Unit
  /-- Writes to the standard error. -/
  err (text : String) : m Unit

/-- How the program is called. -/
def usage (program : String) : String :=
  "Usage: " ++ program ++
    " [-o <out.ssm>] [--word-size <n>] [--shadowing allow|warn|reject] [-v|-vv] <file.lpl>\n" ++
    "\nExamples:\n" ++
    "  " ++ program ++ " demo.lpl              # Print the assembly to stdout\n" ++
    "  " ++ program ++ " -o demo.ssm demo.lpl  # Write it to a file"

/-- Whether an event is shown at a verbosity. -/
def shown (verbosity : Nat) (e : Event) : Bool :=
  match e.level with
  | .warn | .info => true
  | .debug => 1 ≤ verbosity
  | .trace => 2 ≤ verbosity

section

variable {m : Type → Type} [Monad m] [Host m]

/-- Writes the log lines of the events that are shown. -/
def log (verbosity : Nat) (events : List Event) : m Unit :=
  (events.filter (shown verbosity)).forM fun e => Host.err (e.line ++ "\n")

/-- Ends with a message. -/
def fail (message : String) : m UInt32 := do
  Host.err (message ++ "\n")
  return 1

/-- Puts the assembly where it belongs. -/
def deliver (o : Options) (code : Assembly) : m UInt32 := do
  match o.output with
  | none =>
    Host.out code.text
    return 0
  | some path =>
    match ← Host.writeFile path code.text with
    | .error text => fail ("Error: cannot write '" ++ path ++ "': " ++ text)
    | .ok _ =>
      log o.verbosity [.wrote path code.length]
      return 0

/-- Compiles a source text as the options say. -/
def compileSource (o : Options) (source : String) : m UInt32 := do
  log o.verbosity [.compiling o.input o.settings]
  let c := compile o.settings source
  log o.verbosity c.events
  match c.result with
  | .error e => fail (o.input ++ ": " ++ e.message)
  | .ok code => deliver o code

/-- Runs the program with the given arguments. The result is its exit status. -/
def run (program : String) (args : List String) : m UInt32 := do
  match Options.parse args with
  | .error e => fail ("Error: " ++ e.text ++ "\n\n" ++ usage program)
  | .ok o =>
    match ← Host.readFile o.input with
    | .error .missing => fail ("Error: File '" ++ o.input ++ "' not found")
    | .error (.failed text) => fail ("Error: cannot read '" ++ o.input ++ "': " ++ text)
    | .ok bytes =>
      match String.fromUTF8? bytes with
      | none =>
        fail ("Error: cannot read '" ++ o.input ++ "': stream did not contain valid UTF-8")
      | some source => compileSource o source

end

end Lpl.Cli
