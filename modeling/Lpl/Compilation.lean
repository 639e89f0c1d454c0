import Lpl.Code.Program
import Lpl.Grammar.Program

/-!
# Compiling

From a text or a program tree to assembly code. The first error ends a compilation, and no code
comes out of it then.
-/

namespace Lpl

/-- Why a compilation failed. -/
inductive Failure where
  | parse (error : ParseError)
  | compile (error : CompileError)
  /-- The system's own words on why a text could not be read or written. -/
  | io (text : String)
deriving DecidableEq, Repr

namespace Failure

/-- What caused the failure, in its own words. -/
def cause : Failure → String
  | parse e => e.message
  | compile e => e.message
  | io text => text

/-- The failure in words. -/
def message : Failure → String
  | parse e => e.message
  | compile e => "Compile error: " ++ e.message
  | io text => "I/O error: " ++ text

end Failure

/-- The result of an emitter that starts with no labels taken: its code, if it succeeds. -/
def Emitter.assembly {α : Type} (x : Emitter α) : Logged CompileError Assembly :=
  let e := x.run {}
  ⟨e.result.map fun _ => e.code, e.events⟩

/-- Compiles a program tree. -/
def Program.compile (s : Settings) (p : Program) : Logged CompileError Assembly := do
  let table ← Table.ofProgram s p
  let code ← (p.code ⟨table, none⟩).assembly
  Logged.tell [.generated code.length]
  return code

/-- Reads the program of a stream. -/
def TokenStream.program (s : TokenStream) : Logged ParseError Program :=
  match Parser.program s with
  | .ok p _ => ⟨.ok p, [.parsed p.globals.length p.body.length p.methods.length]⟩
  | .error e _ => ⟨.error e, []⟩

/-- Compiles a source text. -/
def compile (s : Settings) (source : String) : Logged Failure Assembly := do
  let p ← ((Logged.ofExcept (TokenStream.ofSource source)).bind TokenStream.program).mapError
    Failure.parse
  (p.compile s).mapError Failure.compile

end Lpl
