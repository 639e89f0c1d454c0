import Lpl.CompileError
import Lpl.Log
import Lpl.Tree

/-!
# Declarations and storage

A `Table` holds what a program declares, once it has been checked:

- global names are distinct, and so are method names;
- in a method, parameters and locals are all distinct;
- a parameter or local with a global's name is reported as the settings say;
- every variable has its place within the range of a word.

Globals stand in the data segment one word after another. Parameters and locals have positions
in a call's frame, counted from 1; an array takes one word, its reference.

A `Scope` is a table seen from inside a method, or from the main body when none is active. A
name means a local, else a parameter, else a global.
-/

namespace Lpl

/-- The words that a call keeps between its arguments and its locals: the return address and the
caller's frame pointer. -/
def linkageWords : Nat := 2

/-- What a program declares, and the size of a word in bytes. -/
structure Table where
  wordSize : Nat
  globals : List Decl
  methods : List Signature
deriving DecidableEq, Repr

namespace Table

/-- A distance of `words` words of `w` bytes is a word itself. -/
def InRange (w words : Nat) : Prop := words * w < 2147483648

instance (w words : Nat) : Decidable (InRange w words) := by
  unfold InRange; infer_instance

/-- One of `ds` declares `name`. -/
def Declares (ds : List Decl) (name : String) : Prop := name ∈ ds.map Decl.name

instance (ds : List Decl) (name : String) : Decidable (Declares ds name) := by
  unfold Declares; infer_instance

/-- Checks globals in order, after the `earlier` ones. -/
def checkGlobals (w : Nat) (earlier : List Decl) : List Decl → Except CompileError Unit
  | [] => .ok ()
  | d :: ds =>
    if Declares earlier d.name then .error (.duplicate d.name .globals d.location)
    else if InRange w earlier.length then checkGlobals w (earlier ++ [d]) ds
    else .error (.layout (.slot d.name w))

/-- Checks the parameters or the locals of a method in order, after the `earlier` ones. A
parameter is the farther from the frame pointer, as the linkage words are between them. -/
def checkSlots (w : Nat) (region : CompileError.Region) (earlier : List Decl) :
    List Decl → Except CompileError Unit
  | [] => .ok ()
  | d :: ds =>
    if ¬ InRange w (earlier.length + 1 + linkageWords) then .error (.layout (.slot d.name w))
    else if Declares earlier d.name then .error (.duplicate d.name region d.location)
    else checkSlots w region (earlier ++ [d]) ds

/-- The parameters and locals of a method that have a global's name. -/
def shadowing (globals : List Decl) (m : Signature) : List Decl :=
  (m.params ++ m.locals).filter fun d => Declares globals d.name

/-- Checks one method on its own: its slots, its locals against its parameters, and both against
the globals. -/
def checkMethod (w : Nat) (globals : List Decl) (policy : Shadowing) (m : Signature) :
    Logged CompileError Unit := do
  Logged.ofExcept (checkSlots w (.params m.name) [] m.params)
  Logged.ofExcept (checkSlots w (.locals m.name) [] m.locals)
  match m.locals.find? fun d => Declares m.params d.name with
  | some d => .ofExcept (.error (.duplicate d.name (.alreadyParam m.name) d.location))
  | none =>
    match policy, shadowing globals m with
    | .allow, _ => pure ()
    | .warn, ds => .tell (ds.map fun d => .hidesGlobal m.name d.name d.location.line)
    | .reject, [] => pure ()
    | .reject, d :: _ => .ofExcept (.error (.duplicate d.name (.hidesGlobal m.name) d.location))

/-- Checks methods in order, after those with the `earlier` names. -/
def checkMethods (w : Nat) (globals : List Decl) (policy : Shadowing) (earlier : List String) :
    List Method → Logged CompileError Unit
  | [] => pure ()
  | m :: ms => do
    if m.name ∈ earlier then .ofExcept (.error (.duplicate m.name .methods m.location))
    else
      checkMethod w globals policy m.toSignature
      checkMethods w globals policy (earlier ++ [m.name]) ms

/-- The table of a program whose declarations are in order. -/
def ofProgram (s : Settings) (p : Program) : Logged CompileError Table := do
  if 1 ≤ s.wordSize ∧ s.wordSize ≤ Settings.maxWordSize then
    let w := s.wordSize.toNat
    Logged.ofExcept (checkGlobals w [] p.globals)
    checkMethods w p.globals s.shadowing [] p.methods
    Logged.tell [.laidOut p.globals.length p.methods.length]
    return ⟨w, p.globals, p.methods.map Method.toSignature⟩
  else .ofExcept (.error (.layout (.wordSize s.wordSize)))

/-- The signature of a declared method. -/
def method? (t : Table) (name : String) : Option Signature :=
  t.methods.find? fun m => m.name = name

/-- The signature of a method, which has to be declared. -/
def method (t : Table) (name : String) : Except CompileError Signature :=
  match t.method? name with
  | some m => .ok m
  | none => .error (.undeclared .method name none)

end Table

/-- Where a variable is stored. -/
inductive Place where
  /-- In the data segment, at an offset in bytes. -/
  | global (offset : Nat)
  /-- In the frame, as the parameter with the given position from 1. -/
  | param (position : Nat)
  /-- In the frame, as the local with the given position from 1. -/
  | localVar (position : Nat)
deriving DecidableEq, Repr

/-- What a variable's name means. -/
structure Variable where
  place : Place
  type : VarType
deriving DecidableEq, Repr

/-- A table, and the method whose code is being generated. -/
structure Scope where
  table : Table
  active : Option Signature
deriving DecidableEq, Repr

namespace Scope

/-- The index and type of a name among declarations. -/
def slot? (name : String) : List Decl → Option (Nat × VarType)
  | [] => none
  | d :: ds =>
    if d.name = name then some (0, d.type) else (slot? name ds).map fun (i, t) => (i + 1, t)

/-- What a name means inside a method. -/
def inMethod? (m : Signature) (name : String) : Option Variable :=
  match slot? name m.locals, slot? name m.params with
  | some (i, t), _ => some ⟨.localVar (i + 1), t⟩
  | none, some (i, t) => some ⟨.param (i + 1), t⟩
  | none, none => none

/-- What a name means among the globals. -/
def global? (t : Table) (name : String) : Option Variable :=
  (slot? name t.globals).map fun (i, type) => ⟨.global (i * t.wordSize), type⟩

/-- What a name means, if anything. -/
def find? (σ : Scope) (name : String) : Option Variable :=
  (σ.active.bind fun m => inMethod? m name).or (global? σ.table name)

/-- What a name means, which has to be declared. -/
def resolve (σ : Scope) (name : String) : Except CompileError Variable :=
  match σ.find? name with
  | some v => .ok v
  | none => .error (.undeclared .var name none)

/-- The scope inside the method with signature `m`. -/
def inside (σ : Scope) (m : Signature) : Scope := ⟨σ.table, some m⟩

/-- The scope outside all methods. -/
def outside (σ : Scope) : Scope := ⟨σ.table, none⟩

/-- The declared method that is to be entered; none may be active. -/
def enter (σ : Scope) (name : String) : Except CompileError Signature :=
  match σ.table.method name, σ.active with
  | .error e, _ => .error e
  | .ok _, some active => .error (.misplaced (.nestedEntry name active.name) none)
  | .ok m, none => .ok m

/-- The number of locals of the active method. -/
def localCount (σ : Scope) : Except CompileError Nat :=
  match σ.active with
  | some m => .ok m.locals.length
  | none => .error (.misplaced .localsOutsideMethod none)

/-- The number of parameters and locals of the active method. -/
def frameSize (σ : Scope) : Except CompileError Nat :=
  match σ.active with
  | some m => .ok m.frameSize
  | none => .error (.misplaced .frameOutsideMethod none)

end Scope

end Lpl
