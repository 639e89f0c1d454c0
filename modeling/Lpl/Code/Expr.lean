import Lpl.Code.Emitter
import Lpl.Table

/-!
# Code of expressions

The code of an expression leaves its value on the stack, one word above what was there.

- a variable: its address, `load`;
- `!e`: `e`, `test_z`; and `-e`: `push 0`, `e`, `sub`;
- `l op r`: `l`, `r` and the operator; a comparison tests the difference, and a logical
  operator turns both operands into truth values on the way;
- `x[i]…`: the address of `x`, per index `load`, `i`, `array_index`, and a last `load`;
- `new int[n]…`: the sizes, `new_array`;
- `f(…)`: the arguments, the last one first, their number, `calli`.

A global is `offset` bytes from the data pointer. In a frame the linkage words are at and just
above the frame pointer, the parameters above these, and the locals below the frame pointer.
-/

namespace Lpl

open Emitter

/-- Code that is followed by the distance from it to the place. -/
def Place.base : Place → Instruction
  | global _ => .getDp
  | param _ | localVar _ => .getFp

/-- The distance of a place from its base, in bytes. -/
def Place.displacement (w : Nat) : Place → Int
  | global offset => offset
  | param k => ((k + linkageWords - 1) * w : Nat)
  | localVar k => -(k * w : Nat)

/-- Code that leaves the address of a place. -/
def Place.address (w : Nat) (p : Place) : Assembly :=
  [p.base, .push (.ofInt (p.displacement w)), .add]

/-- Emits the address of the variable that is named at location `l`. -/
def Scope.address (σ : Scope) (name : String) (l : Location) : Emitter Unit := do
  let v ← locatedAt l (ofExcept (σ.resolve name))
  emit (v.place.address σ.table.wordSize)

/-- What an operator does between its operands: a logical one makes the left a truth value. -/
def BinaryOp.afterLeft : BinaryOp → Assembly
  | and => [.testZ, .testZ]
  | or => [.testZ]
  | _ => []

/-- What an operator does behind its operands. -/
def BinaryOp.afterRight : BinaryOp → Assembly
  | add => [.add]
  | sub => [.sub]
  | mul => [.mul]
  | div => [.div]
  | less => [.sub, .testN]
  | lessEq => [.sub, .push 1, .sub, .testN]
  | equal => [.sub, .testZ]
  | and => [.testZ, .testZ, .mul]
  | or => [.testZ, .mul, .testZ]

/-- Emits a call of a declared method, given the code of its arguments. -/
def Scope.call (σ : Scope) (name : String) (l : Location) (argc : Nat) (args : Emitter Unit) :
    Emitter Unit := do
  let _ ← locatedAt l (ofExcept (σ.table.method name))
  args
  emit [.push (.ofNat argc), .call (methodLabel name)]

mutual

/-- Emits the code of an expression. -/
def Expr.code (σ : Scope) : Expr → Emitter Unit
  | .int v _ => emit [.push v]
  | .null _ => emit [.push 0]
  | .var x l => do
    σ.address x l
    emit [.load]
  | .unary .not e _ => do
    e.code σ
    emit [.testZ]
  | .unary .neg e _ => do
    emit [.push 0]
    e.code σ
    emit [.sub]
  | .binary op a b _ => do
    a.code σ
    emit op.afterLeft
    b.code σ
    emit op.afterRight
  | .index x es l => do
    σ.address x l
    Expr.elementAddress σ es
    emit [.load]
  | .length e _ => do
    e.code σ
    emit [.arrayLength]
  | .new es _ _ => do
    Expr.codeAll σ es
    emit [.newArray es.length]
  | .call f es l => σ.call f l es.length (Expr.codeReversed σ es)

/-- Emits the code of expressions, the first one first. -/
def Expr.codeAll (σ : Scope) : List Expr → Emitter Unit
  | [] => pure ()
  | e :: es => do
    e.code σ
    Expr.codeAll σ es

/-- Emits the code of expressions, the last one first. -/
def Expr.codeReversed (σ : Scope) : List Expr → Emitter Unit
  | [] => pure ()
  | e :: es => do
    Expr.codeReversed σ es
    e.code σ

/-- Emits the code that goes from the address of a reference to the address of the element with
the given indices. -/
def Expr.elementAddress (σ : Scope) : List Expr → Emitter Unit
  | [] => pure ()
  | e :: es => do
    emit [.load]
    e.code σ
    emit [.arrayIndex]
    Expr.elementAddress σ es

end

end Lpl
