import Lpl.Code.Stmt

/-!
# Code of methods and programs

A method's code starts at its label and makes room for its locals, which start at 0. Behind its
body it returns 0, as a `RETURN` without a value does.

A program's code is its main body, `halt`, its methods in order, and a data segment with a word
for each global and for each scratch word that was used.
-/

namespace Lpl

open Emitter

/-- Emits the code of the statements of a body. An error without a location is at its
statement. -/
def bodyCode (σ : Scope) : List Stmt → Emitter Unit
  | [] => pure ()
  | s :: ss => do
    locatedAt s.location (s.code σ)
    bodyCode σ ss

/-- Emits the code of a method. Its parameters and locals are those that the table has for its
name. -/
def Method.code (σ : Scope) (m : Method) : Emitter Unit := do
  let s ← locatedAt m.location (ofExcept (σ.enter m.name))
  tell (.compilingMethod m.name)
  emit (.label (methodLabel m.name) :: List.replicate s.locals.length (.push 0))
  bodyCode (σ.inside s) m.body
  emit [.push 0, .push (.ofNat s.frameSize), .ret]

/-- Emits the code of methods in order. -/
def methodsCode (σ : Scope) : List Method → Emitter Unit
  | [] => pure ()
  | m :: ms => do
    m.code σ
    methodsCode σ ms

/-- The data segment with a zero word for each label, if there are any. -/
def dataSegment : List String → Assembly
  | [] => []
  | labels => .data :: labels.map fun l => .word l 0

/-- Emits the code of a program. -/
def Program.code (σ : Scope) (p : Program) : Emitter Unit := do
  bodyCode σ p.body
  emit [.halt]
  methodsCode σ p.methods
  let words ← scratchWords
  emit (dataSegment (σ.table.globals.map (fun d => variableLabel d.name) ++ words))

end Lpl
