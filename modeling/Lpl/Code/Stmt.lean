import Lpl.Code.Expr

/-!
# Code of statements

The code of a statement leaves the stack as it found it.

- an assignment: the address, the value, `store`. The address of an array element is found
  before the value;
- `IF` and `WHILE`: the condition, and jumps between fresh labels;
- `SWITCH`: the arms come first, each under a label of its own and with a jump to the end behind
  it. The dispatch behind them keeps the subject in a scratch word, compares it with one case
  after another and falls through to the default;
- a call: its value goes to a scratch word that nobody reads;
- `RETURN`: the value or 0, the size of the frame, `ret`.
-/

namespace Lpl

open Emitter

/-- Code that writes a newline. -/
def newlineCode : Assembly := [.push 10, .outChar]

/-- What a print statement does with its value. -/
def PrintKind.code : PrintKind → Assembly
  | number => [.outDec]
  | line => .outDec :: newlineCode
  | character => [.outChar]

/-- The stem of a case's label: a minus is written `m`. -/
def caseStem (v : Int32) : String :=
  if v.toInt < 0 then "case_m" ++ toString v.toInt.natAbs else "case_" ++ toString v.toInt

/-- The first case with the value of one before it. -/
def duplicateCase? (earlier : List Int32) : List SwitchCase → Option SwitchCase
  | [] => none
  | c :: cs => if c.value ∈ earlier then some c else duplicateCase? (c.value :: earlier) cs

/-- Fails if two cases have one value. -/
def checkCases (cs : List SwitchCase) : Emitter Unit :=
  match duplicateCase? [] cs with
  | none => pure ()
  | some c => fail (.duplicate ("case " ++ toString c.value) .switchCases c.location)

/-- Takes a label for each case. -/
def caseLabels : List SwitchCase → Emitter (List String)
  | [] => pure []
  | c :: cs => do
    let l ← fresh (caseStem c.value)
    return l :: (← caseLabels cs)

/-- Code that jumps to the label of the case that the word holds, or goes on. -/
def dispatch (word : String) (cs : List SwitchCase) (labels : List String) : Assembly :=
  (cs.zip labels).flatMap fun (c, l) => [.loadi word, .push c.value, .sub, .jumpIfZero l]

mutual

/-- Emits the code of a statement. -/
def Stmt.code (σ : Scope) : Stmt → Emitter Unit
  | .assign x e l => do
    σ.address x l
    e.code σ
    emit [.store]
  | .assignAt x es e l => do
    σ.address x l
    Expr.elementAddress σ es
    e.code σ
    emit [.store]
  | .ifThen c s _ => do
    c.code σ
    let done ← fresh "if_end"
    emit [.jumpIfZero done]
    s.code σ
    emit [.label done]
  | .ifElse c s t _ => do
    c.code σ
    let other ← fresh "if_else"
    let done ← fresh "if_end"
    emit [.jumpIfZero other]
    s.code σ
    emit [.jump done, .label other]
    t.code σ
    emit [.label done]
  | .whileDo c s _ => do
    let again ← fresh "while_start"
    let done ← fresh "while_end"
    emit [.label again]
    c.code σ
    emit [.jumpIfZero done]
    s.code σ
    emit [.jump again, .label done]
  | .switch e cs d _ => do
    checkCases cs
    let choice ← fresh "switch_dispatch"
    let done ← fresh "switch_end"
    let otherwise ← fresh "switch_default"
    let labels ← caseLabels cs
    emit [.jump choice]
    SwitchCase.codeAll σ done cs labels
    emit [.label choice]
    e.code σ
    let word ← scratch "switch"
    emit (.storei word :: dispatch word cs labels)
    emit [.label otherwise]
    d.code σ
    emit [.label done]
  | .block ss _ => Stmt.codeAll σ ss
  | .print k e _ => do
    e.code σ
    emit k.code
  | .newline _ => emit newlineCode
  | .ret v l =>
    match σ.active with
    | none => fail (.misplaced .returnOutsideMethod l)
    | some m => do
      match v with
      | some e => e.code σ
      | none => do
        if m.isFunction then tell (.bareReturn m.name l.line)
        emit [.push 0]
      emit [.push (.ofNat m.frameSize), .ret]
  | .call f es l => do
    σ.call f l es.length (Expr.codeReversed σ es)
    let word ← scratch "discard"
    emit [.storei word]

/-- Emits the code of statements in order. -/
def Stmt.codeAll (σ : Scope) : List Stmt → Emitter Unit
  | [] => pure ()
  | s :: ss => do
    s.code σ
    Stmt.codeAll σ ss

/-- Emits the arms of a switch, each under its label and with a jump to `done` behind it. -/
def SwitchCase.codeAll (σ : Scope) (done : String) : List SwitchCase → List String → Emitter Unit
  | .mk _ s _ :: cs, l :: ls => do
    emit [.label l]
    s.code σ
    emit [.jump done]
    SwitchCase.codeAll σ done cs ls
  | _, _ => pure ()

end

end Lpl
