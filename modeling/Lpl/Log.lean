import Lpl.Settings

/-!
# Log events

What a compilation tells about itself on the way. Events are values; whoever runs the compiler
writes the lines of those that its verbosity shows.
-/

namespace Lpl

/-- The weight of an event. -/
inductive Level where
  | warn | info | debug | trace
deriving DecidableEq, Repr, Inhabited

/-- The level as log lines show it, five columns wide. -/
def Level.text : Level → String
  | warn => " WARN"
  | info => " INFO"
  | debug => "DEBUG"
  | trace => "TRACE"

/-- Something worth telling. -/
inductive Event where
  | compiling (input : String) (settings : Settings)
  | parsed (globals statements methods : Nat)
  /-- A parameter or local, declared on the given line, hides a global. -/
  | hidesGlobal (method name : String) (line : Nat)
  | laidOut (globals methods : Nat)
  | freshLabel (label : String)
  | compilingMethod (method : String)
  /-- A function returns without a value on the given line. -/
  | bareReturn (method : String) (line : Nat)
  | generated (instructions : Nat)
  | wrote (output : String) (instructions : Nat)
deriving DecidableEq, Repr

namespace Event

/-- The level of an event. -/
def level : Event → Level
  | compiling .. | wrote .. => .info
  | hidesGlobal .. | bareReturn .. => .warn
  | parsed .. | laidOut .. | compilingMethod .. | generated .. => .debug
  | freshLabel .. => .trace

/-- The event in words, its details as `key=value` behind. -/
def text : Event → String
  | compiling input s =>
    "compiling input=" ++ input ++ " word_size=" ++ toString s.wordSize ++ " shadowing=" ++
      s.shadowing.name
  | parsed g s m =>
    "parsed program globals=" ++ toString g ++ " statements=" ++ toString s ++ " methods=" ++
      toString m
  | hidesGlobal m x line =>
    "declaration hides the global of the same name inside this method method=" ++ m ++
      " variable=" ++ x ++ " line=" ++ toString line
  | laidOut g m => "built symbol table globals=" ++ toString g ++ " methods=" ++ toString m
  | freshLabel l => "fresh label label=" ++ l
  | compilingMethod m => "compiling method method=" ++ m
  | bareReturn m line =>
    "RETURN without a value in a function returns 0 method=\"" ++ m ++ "\" line=" ++
      toString line
  | generated n => "generated assembly instructions=" ++ toString n
  | wrote output n =>
    "wrote assembly output=" ++ output ++ " instructions=" ++ toString n

/-- The log line of an event. -/
def line (e : Event) : String := e.level.text ++ " " ++ e.text

end Event

/-- A result that may be an error, and the events on the way to it. -/
structure Logged (ε α : Type) where
  result : Except ε α
  events : List Event

namespace Logged

variable {ε α β : Type}

/-- A result without events. -/
def ofExcept (x : Except ε α) : Logged ε α := ⟨x, []⟩

/-- Tells events. -/
def tell (events : List Event) : Logged ε Unit := ⟨.ok (), events⟩

/-- Goes on after a success; a failure ends the log. -/
protected def bind (x : Logged ε α) (f : α → Logged ε β) : Logged ε β :=
  match x.result with
  | .ok a => ⟨(f a).result, x.events ++ (f a).events⟩
  | .error e => ⟨.error e, x.events⟩

/-- Changes the error. -/
def mapError {δ : Type} (f : ε → δ) (x : Logged ε α) : Logged δ α :=
  ⟨x.result.mapError f, x.events⟩

instance : Monad (Logged ε) where
  pure a := ⟨.ok a, []⟩
  bind := Logged.bind

end Logged

end Lpl
