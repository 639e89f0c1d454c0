import Lpl.Code.Instruction
import Lpl.CompileError
import Lpl.Log

/-!
# Emitting code

An emitter produces a stretch of code, in order, and takes labels from a supply as it goes. It
may fail on the way; what it emitted and took before that is still there.

Four kinds of labels never meet: `$_m` for methods, `$v_x` for the words of globals, `$s_x` for
scratch words, and `$$_stem_n` for places in the code, with a number that is used once.
-/

namespace Lpl

/-- The label of a method's code. -/
def methodLabel (name : String) : String := "$_" ++ name

/-- The label of a global's word. -/
def variableLabel (name : String) : String := "$v_" ++ name

/-- The label of a scratch word. -/
def scratchLabel (name : String) : String := "$s_" ++ name

/-- The label of the place with number `n`. -/
def placeLabel (stem : String) (n : Nat) : String := "$$_" ++ stem ++ "_" ++ toString n

/-- The supply of labels. -/
structure Labels where
  /-- The number of the next place. -/
  next : Nat := 0
  /-- The labels of the scratch words used so far, in the order of first use. -/
  scratch : List String := []
deriving DecidableEq, Repr, Inhabited

/-- What came of emitting code: a result or an error, the labels then, and the code and events
on the way. -/
structure Emission (α : Type) where
  result : Except CompileError α
  labels : Labels
  code : Assembly
  events : List Event

/-- Emits code, with labels from a supply. -/
def Emitter (α : Type) := Labels → Emission α

namespace Emitter

variable {α β : Type}

/-- Runs an emitter on a supply of labels. -/
def run (x : Emitter α) (ls : Labels) : Emission α := x ls

/-- Emits nothing. -/
protected def pure (a : α) : Emitter α := fun ls => ⟨.ok a, ls, [], []⟩

/-- Emits the code of `x` and, if it succeeds, the code of what follows behind it. -/
protected def bind (x : Emitter α) (f : α → Emitter β) : Emitter β := fun ls =>
  let a := x ls
  match a.result with
  | .ok v =>
    let b := f v a.labels
    ⟨b.result, b.labels, a.code ++ b.code, a.events ++ b.events⟩
  | .error e => ⟨.error e, a.labels, a.code, a.events⟩

instance : Monad Emitter where
  pure := Emitter.pure
  bind := Emitter.bind

/-- Emits the given lines. -/
def emit (code : Assembly) : Emitter Unit := fun ls => ⟨.ok (), ls, code, []⟩

/-- Tells an event. -/
def tell (e : Event) : Emitter Unit := fun ls => ⟨.ok (), ls, [], [e]⟩

/-- Succeeds or fails with what has been found. -/
def ofExcept (x : Except CompileError α) : Emitter α := fun ls => ⟨x, ls, [], []⟩

/-- Fails. -/
def fail (e : CompileError) : Emitter α := ofExcept (.error e)

/-- Gives the location `l` to an error that has none. -/
def locatedAt (l : Location) (x : Emitter α) : Emitter α := fun ls =>
  let a := x ls
  { a with result := a.result.mapError (CompileError.locatedAt l) }

/-- Takes the label of a new place. -/
def fresh (stem : String) : Emitter String := fun ls =>
  let label := placeLabel stem ls.next
  ⟨.ok label, { ls with next := ls.next + 1 }, [], [.freshLabel label]⟩

/-- The label of a scratch word, which is used from now on. -/
def scratch (name : String) : Emitter String := fun ls =>
  let label := scratchLabel name
  let words := if label ∈ ls.scratch then ls.scratch else ls.scratch ++ [label]
  ⟨.ok label, { ls with scratch := words }, [], []⟩

/-- The labels of the scratch words used so far. -/
def scratchWords : Emitter (List String) := fun ls => ⟨.ok ls.scratch, ls, [], []⟩

end Emitter

end Lpl
