import Lpl.Code.Program

/-!
# Sessions on a table

A session works on the table of one program: it looks names up, goes in and out of methods, takes
labels, and emits the code of any tree behind the code it has so far. An operation that fails
leaves a reply and the session goes on; labels taken and code emitted before the failure stay.
-/

namespace Lpl

/-- A tree whose code can be emitted. -/
inductive Node where
  | program (p : Program)
  | method (m : Method)
  | stmt (s : Stmt)
  | expr (e : Expr)

/-- Emits the code of a tree. -/
def Node.code (σ : Scope) : Node → Emitter Unit
  | program p => p.code σ
  | method m => m.code σ
  | stmt s => s.code σ
  | expr e => e.code σ

/-- A scope that changes, the supply of labels, and the code and events so far. -/
structure Session where
  scope : Scope
  labels : Labels := {}
  code : Assembly := []
  events : List Event := []

namespace Session

/-- What can be asked of a session. -/
inductive Op where
  | resolve (name : String)
  | method (name : String)
  | globals
  | wordSize
  | active
  | enter (name : String)
  | exit
  /-- Enters a method, does what is to be done there, and leaves whatever method is active
  then. -/
  | within (name : String) (ops : List Op)
  | localCount
  | frameSize
  | methodLabel (name : String)
  | variableLabel (name : String)
  | scratch (name : String)
  | fresh (stem : String)
  | scratchWords
  | emit (node : Node)
  | code

/-- What a session answers. -/
inductive Reply where
  | done
  | failed (e : CompileError)
  | resolved (v : Variable)
  | method (m : Signature)
  | number (n : Nat)
  | active (name : Option String)
  | label (l : String)
  | names (xs : List String)
  /-- The code that was emitted, and the error if it broke off. -/
  | emitted (code : Assembly) (error : Option CompileError)
  | code (code : Assembly)
  | within (replies : List Reply)

/-- At the start: outside all methods, no labels taken, no code. -/
def start (t : Table) : Session := { scope := ⟨t, none⟩ }

/-- A reply that is an error or made of a result. -/
def Reply.ofExcept {α : Type} (f : α → Reply) : Except CompileError α → Reply
  | .ok a => f a
  | .error e => failed e

/-- The label that an emitter takes, and the session after that. -/
def take (s : Session) (x : Emitter String) : Reply × Session :=
  let e := x.run s.labels
  (.ofExcept .label e.result, { s with labels := e.labels, events := s.events ++ e.events })

/-- Emits code behind the code so far. -/
def append (s : Session) (x : Emitter Unit) : Reply × Session :=
  let e := x.run s.labels
  let error := match e.result with
    | .ok _ => none
    | .error e => some e
  (.emitted e.code error,
    { s with labels := e.labels, code := s.code ++ e.code, events := s.events ++ e.events })

mutual

/-- One operation: its reply, and the session after it. -/
def step (s : Session) : Op → Reply × Session
  | .resolve x => (.ofExcept .resolved (s.scope.resolve x), s)
  | .method m => (.ofExcept .method (s.scope.table.method m), s)
  | .globals => (.names (s.scope.table.globals.map Decl.name), s)
  | .wordSize => (.number s.scope.table.wordSize, s)
  | .active => (.active (s.scope.active.map Signature.name), s)
  | .enter m =>
    match s.scope.enter m with
    | .ok sig => (.done, { s with scope := s.scope.inside sig })
    | .error e => (.failed e, s)
  | .exit =>
    match s.scope.active with
    | some _ => (.done, { s with scope := s.scope.outside })
    | none => (.failed (.misplaced .exitOutsideMethod none), s)
  | .within m ops =>
    match s.scope.enter m with
    | .ok sig =>
      let (replies, s') := run { s with scope := s.scope.inside sig } ops
      (.within replies, { s' with scope := s'.scope.outside })
    | .error e => (.failed e, s)
  | .localCount => (.ofExcept .number s.scope.localCount, s)
  | .frameSize => (.ofExcept .number s.scope.frameSize, s)
  | .methodLabel m => (.label (Lpl.methodLabel m), s)
  | .variableLabel x => (.label (Lpl.variableLabel x), s)
  | .scratch x => s.take (Emitter.scratch x)
  | .fresh stem => s.take (Emitter.fresh stem)
  | .scratchWords => (.names s.labels.scratch, s)
  | .emit node => s.append (node.code s.scope)
  | .code => (.code s.code, s)

/-- Operations in order: their replies, and the session after them. -/
def run (s : Session) : List Op → List Reply × Session
  | [] => ([], s)
  | op :: ops =>
    let (reply, s') := s.step op
    let (replies, s'') := run s' ops
    (reply :: replies, s'')

end

end Session

end Lpl
