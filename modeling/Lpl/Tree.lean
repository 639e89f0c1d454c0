import Lpl.Location

/-!
# Program trees

An LPL program has global variables, a main body and methods. A method is a function when it
has a return type and a procedure otherwise. All values are 32-bit integers or references to
integer arrays, so a type is its number of array dimensions.

Each node keeps the location that messages about it give: the operator of a binary expression,
and the first token of every other construct.
-/

namespace Lpl

/-- A type: `int`, or an array of arrays … of `int` with the given number of dimensions. -/
structure VarType where
  dimensions : Nat
deriving DecidableEq, Repr, Inhabited

/-- A declared variable. -/
structure Decl where
  name : String
  type : VarType
  location : Location
deriving DecidableEq, Repr, Inhabited

/-- The operators of one operand: `-` and `!`. -/
inductive UnaryOp where
  | neg | not
deriving DecidableEq, Repr, Inhabited

/-- The operators of two operands. -/
inductive BinaryOp where
  | add | sub | mul | div
  | less | lessEq | equal
  | and | or
deriving DecidableEq, Repr, Inhabited

/-- Expressions. -/
inductive Expr where
  | int (value : Int32) (location : Location)
  | null (location : Location)
  | var (name : String) (location : Location)
  | unary (op : UnaryOp) (operand : Expr) (location : Location)
  | binary (op : BinaryOp) (left right : Expr) (location : Location)
  /-- An element of an array variable, one index per dimension. -/
  | index (name : String) (indices : List Expr) (location : Location)
  | length (array : Expr) (location : Location)
  /-- A new array with the given sizes and a number of dimensions left open. -/
  | new (sizes : List Expr) (unsized : Nat) (location : Location)
  | call (name : String) (args : List Expr) (location : Location)
deriving Repr, Inhabited

/-- What a print statement writes: a number, a number and a newline, or a character. -/
inductive PrintKind where
  | number | line | character
deriving DecidableEq, Repr, Inhabited

mutual

/-- Statements. -/
inductive Stmt where
  | assign (name : String) (value : Expr) (location : Location)
  /-- Assignment to an element of an array variable. -/
  | assignAt (name : String) (indices : List Expr) (value : Expr) (location : Location)
  | ifThen (condition : Expr) (thenBranch : Stmt) (location : Location)
  | ifElse (condition : Expr) (thenBranch elseBranch : Stmt) (location : Location)
  | whileDo (condition : Expr) (body : Stmt) (location : Location)
  | switch (subject : Expr) (cases : List SwitchCase) (default : Stmt) (location : Location)
  | block (statements : List Stmt) (location : Location)
  | print (kind : PrintKind) (value : Expr) (location : Location)
  | newline (location : Location)
  | ret (value : Option Expr) (location : Location)
  | call (name : String) (args : List Expr) (location : Location)

/-- One arm of a switch. -/
inductive SwitchCase where
  | mk (value : Int32) (body : Stmt) (location : Location)

end

namespace Stmt

instance : Inhabited Stmt := ⟨.newline default⟩

/-- The location of a statement's first token. -/
def location : Stmt → Location
  | assign _ _ l | assignAt _ _ _ l | ifThen _ _ l | ifElse _ _ _ l | whileDo _ _ l
  | switch _ _ _ l | block _ l | print _ _ l | newline l | ret _ l | call _ _ l => l

end Stmt

namespace SwitchCase

/-- The value that selects the case. -/
def value : SwitchCase → Int32
  | mk v _ _ => v

/-- The statement that the case runs. -/
def body : SwitchCase → Stmt
  | mk _ b _ => b

/-- Where the case starts. -/
def location : SwitchCase → Location
  | mk _ _ l => l

end SwitchCase

/-- What a method declares: its name, its return type if it is a function, its parameters and
its local variables. -/
structure Signature where
  name : String
  returnType : Option VarType
  params : List Decl
  locals : List Decl
deriving DecidableEq, Repr, Inhabited

namespace Signature

/-- Functions return a value; procedures do not. -/
def isFunction (s : Signature) : Bool := s.returnType.isSome

/-- The number of words that a call's parameters and locals take. -/
def frameSize (s : Signature) : Nat := s.params.length + s.locals.length

end Signature

/-- A method: its signature and its body. -/
structure Method extends Signature where
  body : List Stmt
  location : Location
deriving Inhabited

/-- A whole program. -/
structure Program where
  globals : List Decl
  body : List Stmt
  methods : List Method
deriving Inhabited

end Lpl
