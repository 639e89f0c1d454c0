import Lpl.Machine.Step
import Lpl.Proofs.Calls

/-!
# The meaning of programs

An interpreter for programs without arrays, which knows nothing of code, stacks or addresses. A
`World` is what can be seen of a run: the values of the globals and what was written. Variables of a
method are bindings of their own, and a name means one of these before it means a global.

- Arithmetic is that of 32-bit words: it wraps around, and division goes toward zero.
- `<` and `<=` look at the sign of a difference, which wraps around too; a truth value is 0 or 1.
- Operands are evaluated from left to right, both of them also for `&&` and `||`, and the arguments of
  a call from the last to the first.
- Parameters and locals belong to one call. Locals start at 0, and so do globals.
- A method that ends without a `RETURN`, or with one that has no value, returns 0.

The interpreter takes a bound: on how deep calls go, and on how often a loop goes round. Where it is
`outOfFuel` a larger bound may do. It is `stuck` where a name means nothing, where the number of
arguments is wrong, and at arrays.
-/

namespace Lpl

/-! ## Worlds -/

/-- The values of variables by name. -/
abbrev Bindings := List (String × Int32)

namespace Bindings

/-- Gives a variable that is bound another value. -/
def set (b : Bindings) (x : String) (v : Int32) : Bindings :=
  b.map fun (y, u) => (y, if y = x then v else u)

theorem lookup_set (b : Bindings) (x y : String) (v : Int32) :
    (b.set x v).lookup y = if y = x then (b.lookup y).map fun _ => v else b.lookup y := by
  induction b with
  | nil => simp [set]
  | cons p b ih =>
    obtain ⟨z, u⟩ := p
    change (((z, if z = x then v else u) :: set b x v).lookup y) = _
    by_cases hy : y = z
    · subst hy
      by_cases hx : y = x <;> simp [hx]
    · have hyz : (y == z) = false := by simpa using hy
      simp only [List.lookup_cons, hyz, ih]

end Bindings

/-- What can be seen of a run. -/
structure World where
  globals : Bindings
  output : String
deriving DecidableEq, Repr

/-- Why there is no result. -/
inductive Stop where
  | divisionByZero
  | outOfFuel
  | stuck
deriving DecidableEq, Repr

/-- Changes the world, or stops in it. -/
abbrev Eval := EStateM Stop World

namespace Eval

/-- The value of a variable, of the method if it has one of that name. -/
def readVar (f : Bindings) (x : String) : Eval Int32 := fun w =>
  match (f.lookup x).or (w.globals.lookup x) with
  | some v => .ok v w
  | none => .error .stuck w

/-- Assigns to a variable. The result is what the variables of the method are then. -/
def assignVar (f : Bindings) (x : String) (v : Int32) : Eval Bindings := fun w =>
  if (f.lookup x).isSome then .ok (f.set x v) w
  else if (w.globals.lookup x).isSome then .ok f { w with globals := w.globals.set x v }
  else .error .stuck w

/-- Appends to the output. -/
def output (text : String) : Eval Unit := fun w => .ok () { w with output := w.output ++ text }

end Eval

/-! ## Expressions -/

/-- Truth as a value. -/
def truth (p : Prop) [Decidable p] : Int32 := if p then 1 else 0

/-- The value of an operator on the values of its operands. -/
def BinaryOp.apply (op : BinaryOp) (a b : Int32) : Eval Int32 :=
  match op with
  | add => pure (a + b)
  | sub => pure (a - b)
  | mul => pure (a * b)
  | div => if b = 0 then throw .divisionByZero else pure (a / b)
  | less => pure (truth ((a - b).toInt < 0))
  | lessEq => pure (truth ((a - b - 1).toInt < 0))
  | equal => pure (truth (a = b))
  | and => pure (truth (a ≠ 0 ∧ b ≠ 0))
  | or => pure (truth (a ≠ 0 ∨ b ≠ 0))

section

variable (call : String → List Int32 → Eval Int32)

mutual

/-- The value of an expression, where `f` are the variables of the method and `call` calls one. -/
def Expr.eval (f : Bindings) : Expr → Eval Int32
  | .int v _ => pure v
  | .null _ => pure 0
  | .var x _ => Eval.readVar f x
  | .unary .not e _ => do
    let v ← e.eval f
    return truth (v = 0)
  | .unary .neg e _ => do
    let v ← e.eval f
    return 0 - v
  | .binary op a b _ => do
    let u ← a.eval f
    let v ← b.eval f
    op.apply u v
  | .call g es _ => do
    let vs ← Expr.evalReversed f es
    call g vs
  | .index .. | .length .. | .new .. => throw .stuck

/-- The values of expressions, of which the last one is evaluated first. -/
def Expr.evalReversed (f : Bindings) : List Expr → Eval (List Int32)
  | [] => pure []
  | e :: es => do
    let vs ← Expr.evalReversed f es
    let v ← e.eval f
    return v :: vs

end

/-! ## Statements -/

/-- How a statement ends: with the variables of the method as they are then, or out of the
method. -/
inductive Flow where
  | next (frame : Bindings)
  | returned (value : Int32)
deriving DecidableEq, Repr

/-- What a print statement writes. -/
def PrintKind.written : PrintKind → Int32 → String
  | number, v => toString v
  | line, v => toString v ++ "\n"
  | character, v => String.singleton (Machine.charOf v)

/-- Goes on with `k` unless the method was left. -/
def Flow.andThen (k : Bindings → Eval Flow) : Flow → Eval Flow
  | next f => k f
  | returned v => pure (returned v)

/-- A loop that goes round at most `n` times. -/
def repeatWhile (condition : Bindings → Eval Int32) (body : Bindings → Eval Flow) :
    Nat → Bindings → Eval Flow
  | 0, _ => throw .outOfFuel
  | n + 1, f => do
    let v ← condition f
    if v = 0 then return .next f
    let r ← body f
    r.andThen (repeatWhile condition body n)

mutual

/-- Runs a statement, with at most `n` rounds of each loop. -/
def Stmt.exec (n : Nat) : Stmt → Bindings → Eval Flow
  | .assign x e _, f => do
    let v ← e.eval call f
    let f ← Eval.assignVar f x v
    return .next f
  | .assignAt .., _ => throw .stuck
  | .ifThen c s _, f => do
    let v ← c.eval call f
    if v = 0 then return .next f else s.exec n f
  | .ifElse c s t _, f => do
    let v ← c.eval call f
    if v = 0 then t.exec n f else s.exec n f
  | .whileDo c s _, f => repeatWhile (fun f => c.eval call f) (s.exec n) n f
  | .switch e cs d _, f => do
    let v ← e.eval call f
    SwitchCase.select n v (d.exec n) cs f
  | .block ss _, f => Stmt.execAll n ss f
  | .print k e _, f => do
    let v ← e.eval call f
    Eval.output (k.written v)
    return .next f
  | .newline _, f => do
    Eval.output "\n"
    return .next f
  | .ret none _, _ => return .returned 0
  | .ret (some e) _, f => do
    let v ← e.eval call f
    return .returned v
  | .call g es _, f => do
    let vs ← Expr.evalReversed call f es
    let _ ← call g vs
    return .next f

/-- Runs statements in order, until one leaves the method. -/
def Stmt.execAll (n : Nat) : List Stmt → Bindings → Eval Flow
  | [], f => return .next f
  | s :: ss, f => do
    let r ← s.exec n f
    r.andThen (Stmt.execAll n ss)

/-- Runs the first case with the value `v`, or what is done otherwise. -/
def SwitchCase.select (n : Nat) (v : Int32) (otherwise : Bindings → Eval Flow) :
    List SwitchCase → Bindings → Eval Flow
  | [], f => otherwise f
  | .mk u s _ :: cs, f => if v = u then s.exec n f else SwitchCase.select n v otherwise cs f

end

end

/-! ## Programs -/

/-- The variables of a call with the given arguments. -/
def Signature.frame (m : Signature) (args : List Int32) : Bindings :=
  (m.locals.map fun d => (d.name, 0)) ++ (m.params.map Decl.name).zip args

/-- Calls a method, where calls go at most `n` deep. -/
def Program.callWithin (p : Program) : Nat → String → List Int32 → Eval Int32
  | 0, _, _ => throw .outOfFuel
  | n + 1, g, args =>
    match p.methods.find? fun m => m.name = g with
    | none => throw .stuck
    | some m => do
      if m.params.length ≠ args.length then throw .stuck
      let r ← Stmt.execAll (p.callWithin n) n m.body (m.frame args)
      match r with
      | .next _ => return 0
      | .returned v => return v

/-- The world before a program runs. -/
def Program.world (p : Program) : World := ⟨p.globals.map fun d => (d.name, 0), ""⟩

/-- Runs the main body of a program. It cannot be left with a `RETURN`. -/
def Program.main (p : Program) (n : Nat) : Eval Unit := do
  let r ← Stmt.execAll (p.callWithin n) n p.body []
  match r with
  | .next _ => return ()
  | .returned _ => throw .stuck

/-- How a program ends. -/
inductive Ending where
  | normal
  | divisionByZero
deriving DecidableEq, Repr

/-- The program ends so, and this is what can be seen of it then. -/
def Program.EndsWith (p : Program) (e : Ending) (w : World) : Prop :=
  ∃ n, p.main n p.world =
    match e with
    | .normal => .ok () w
    | .divisionByZero => .error .divisionByZero w

/-! ## Programs without arrays -/

mutual

/-- No array is made, read or measured. -/
def Expr.arrayFree : Expr → Bool
  | .int .. | .null _ | .var .. => true
  | .unary _ e _ => e.arrayFree
  | .binary _ a b _ => a.arrayFree && b.arrayFree
  | .call _ es _ => Expr.allArrayFree es
  | .index .. | .length .. | .new .. => false

def Expr.allArrayFree : List Expr → Bool
  | [] => true
  | e :: es => e.arrayFree && Expr.allArrayFree es

end

mutual

/-- No array is made, read, measured or written. -/
def Stmt.arrayFree : Stmt → Bool
  | .assign _ e _ | .print _ e _ => e.arrayFree
  | .assignAt .. => false
  | .ifThen c s _ | .whileDo c s _ => c.arrayFree && s.arrayFree
  | .ifElse c s t _ => c.arrayFree && s.arrayFree && t.arrayFree
  | .switch e cs d _ => e.arrayFree && SwitchCase.allArrayFree cs && d.arrayFree
  | .block ss _ => Stmt.allArrayFree ss
  | .newline _ | .ret none _ => true
  | .ret (some e) _ => e.arrayFree
  | .call _ es _ => Expr.allArrayFree es

def Stmt.allArrayFree : List Stmt → Bool
  | [] => true
  | s :: ss => s.arrayFree && Stmt.allArrayFree ss

def SwitchCase.allArrayFree : List SwitchCase → Bool
  | [] => true
  | .mk _ s _ :: cs => s.arrayFree && SwitchCase.allArrayFree cs

end

def Program.arrayFree (p : Program) : Bool :=
  Stmt.allArrayFree p.body && p.methods.all fun m => Stmt.allArrayFree m.body

/-- Every call has as many arguments as the method has parameters. -/
def Program.CallsMatch (p : Program) : Prop :=
  ∀ c ∈ p.calls, ∀ m ∈ p.methods, m.name = c.method → c.argc = m.params.length

instance (p : Program) : Decidable p.CallsMatch := by
  unfold Program.CallsMatch; infer_instance

end Lpl
