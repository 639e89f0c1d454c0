import Lpl.Cli.Run

/-!
# Entry point

The command line program on the system it runs on.
-/

namespace Lpl.Cli

/-- The system's number for a failure and its words. -/
def systemFault? : IO.Error → Option (UInt32 × String)
  | .noFileOrDirectory _ code text | .interrupted _ code text => some (code, text)
  | .alreadyExists _ code text | .invalidArgument _ code text | .permissionDenied _ code text
  | .resourceExhausted _ code text | .inappropriateType _ code text
  | .noSuchThing _ code text => some (code, text)
  | .otherError code text | .resourceBusy code text | .resourceVanished code text
  | .unsupportedOperation code text | .hardwareFault code text
  | .unsatisfiedConstraints code text | .illegalOperation code text | .protocolError code text
  | .timeExpired code text => some (code, text)
  | _ => none

/-- The failure in the system's words, with its number. -/
def systemText (e : IO.Error) : String :=
  match systemFault? e with
  | some (code, text) => text ++ " (os error " ++ toString code ++ ")"
  | none => toString e

/-- The numbers of the failures to follow a path: nothing is there, a name on the way is not that
of a directory, a name is too long, or links lead in a circle. -/
def unfollowed : List UInt32 := [2, 20, 36, 40]

/-- Why a file cannot be read, from the failure to do so. -/
def readFault (e : IO.Error) : ReadFault :=
  if (systemFault? e).any fun f => f.1 ∈ unfollowed then .missing else .failed (systemText e)

instance : Host IO where
  readFile path := do
    try
      let h ← IO.FS.Handle.mk path .read
      return .ok (← h.readBinToEnd)
    catch e => return .error (readFault e)
  -- The text is flushed here, since a failure to do so is lost when the file is closed.
  writeFile path text := do
    try
      let h ← IO.FS.Handle.mk path .write
      h.putStr text
      h.flush
      return .ok ()
    catch e => return .error (systemText e)
  out text := do (← IO.getStdout).putStr text
  err text := do (← IO.getStderr).putStr text

end Lpl.Cli

/-- Runs the command line program. -/
def main (args : List String) : IO UInt32 :=
  Lpl.Cli.run "lplc" args
