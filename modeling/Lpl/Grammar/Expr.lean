import Lpl.Grammar.Parser
import Lpl.Tree

/-!
# Reading expressions

```text
Exp       ::= SimpleExp [ Op SimpleExp ]
SimpleExp ::= ID "(" Actuals ")"
            | ID ( "[" Exp "]" )* [ "." "length" ]
            | SignedInt | "-" SimpleExp | "!" SimpleExp
            | "new" "int" "[" Exp "]" ( "[" Exp "]" )* ( "[" "]" )*
            | "null" | "(" Exp ")"
Actuals   ::= ε | Exp ( "," Exp )*
SignedInt ::= [ "-" ] INTLIT
```

There are no levels of precedence: an expression holds at most one binary operator outside
parentheses. A `-` directly before a literal belongs to the literal.

A production that nests is given the parser of what is nested in it, so each is a plain
definition; `simpleWithin` ties the knot. It and the loops take a bound on the number of tokens
ahead, which has to be smaller. Every nested read and every round of a loop but the first comes
after a token was taken, so such a bound is never used up, and its size makes no difference.
-/

namespace Lpl

/-- The binary operator that a token kind stands for. -/
def BinaryOp.ofKind? : Token.Kind → Option BinaryOp
  | .star => some .mul
  | .slash => some .div
  | .plus => some .add
  | .minus => some .sub
  | .less => some .less
  | .lessEq => some .lessEq
  | .equalTo => some .equal
  | .andAnd => some .and
  | .orOr => some .or
  | _ => none

namespace Parser

/-- The kinds that an expression can start with. -/
def expressionStart : List Token.Kind :=
  [.ident, .minus, .intLiteral, .kwNew, .bang, .kwNull, .lparen]

/-- The value of a literal with its sign, which has to fit 32 bits. -/
def literalValue (negative : Bool) (literal : Token) : Except ParseError Int32 :=
  match Numeral.read? Numeral.half64 literal.lexeme with
  | none => .error (.unexpected literal [.intLiteral])
  | some n =>
    let value := if negative then Numeral.negate64 n else n
    if Numeral.Within Numeral.half32 value then .ok (.ofInt value)
    else .error (.literalOutOfRange literal value)

variable {σ : Type} [TokenSource σ]

/-- Reads an `INTLIT` behind a `-` or not. -/
def magnitude (negative : Bool) : ParserOn σ Int32 := do
  let literal ← expect .intLiteral
  match literalValue negative literal with
  | .ok v => return v
  | .error e => reject e

/-- Reads `[ "-" ] INTLIT`. -/
def signedInt : ParserOn σ Int32 := do
  let negative ← accept .minus
  magnitude negative

/-- Reads `( "[" "]" )*` and counts them. -/
def emptyBrackets : Nat → ParserOn σ Nat
  | 0 => exhausted
  | n + 1 => do
    if ← accept .lbracket then
      let _ ← expect .rbracket
      return (← emptyBrackets n) + 1
    else return 0

section Productions

variable (expr : ParserOn σ Expr)

/-- Reads `( "[" Exp "]" )*`. -/
def indexers : Nat → ParserOn σ (List Expr)
  | 0 => exhausted
  | n + 1 => do
    if ← accept .lbracket then
      let e ← expr
      let _ ← expect .rbracket
      return e :: (← indexers n)
    else return []

/-- Reads `Exp ( "," Exp )*`. -/
def expressions : Nat → ParserOn σ (List Expr)
  | 0 => exhausted
  | n + 1 => do
    let e ← expr
    if ← accept .comma then return e :: (← expressions n) else return [e]

/-- Reads `ε | Exp ( "," Exp )*` before a closing parenthesis. -/
def arguments (n : Nat) : ParserOn σ (List Expr) := do
  if ← sees .rparen then return [] else expressions expr n

/-- Reads `( "[" Exp "]" )* ( "[" "]" )*`: the sizes, and how many dimensions are left open. -/
def dimensions : Nat → ParserOn σ (List Expr × Nat)
  | 0 => exhausted
  | n + 1 => do
    if ← accept .lbracket then
      if ← accept .rbracket then
        return ([], (← emptyBrackets n) + 1)
      else
        let e ← expr
        let _ ← expect .rbracket
        let (sizes, unsized) ← dimensions n
        return (e :: sizes, unsized)
    else return ([], 0)

/-- Reads what follows a `new` at location `l`. -/
def newArray (n : Nat) (l : Location) : ParserOn σ Expr := do
  let _ ← expect .kwInt
  let _ ← expect .lbracket
  let e ← expr
  let _ ← expect .rbracket
  let (sizes, unsized) ← dimensions expr n
  return .new (e :: sizes) unsized l

/-- Reads what follows an identifier: the arguments of a call, or the indices of a variable and
perhaps `.length`. -/
def namedOperand (n : Nat) (name : Token) : ParserOn σ Expr := do
  if ← accept .lparen then
    let args ← arguments expr n
    let _ ← expect .rparen
    return .call name.lexeme args name.location
  else
    let operand := match ← indexers expr n with
      | [] => Expr.var name.lexeme name.location
      | indices => Expr.index name.lexeme indices name.location
    if ← accept .dot then
      let _ ← expect .kwLength
      return .length operand name.location
    else return operand

end Productions

/-- Reads `SimpleExp [ Op SimpleExp ]`. -/
def binary (simple : ParserOn σ Expr) : ParserOn σ Expr := do
  let left ← simple
  let t ← peek
  match BinaryOp.ofKind? t.kind with
  | none => return left
  | some op => do
    let _ ← next
    let right ← simple
    return .binary op left right t.location

/-- Reads a `SimpleExp` with fewer than `n` tokens ahead. -/
def simpleWithin : Nat → ParserOn σ Expr
  | 0 => exhausted
  | n + 1 => do
    let t ← peek
    match t.kind with
    | .ident =>
      let _ ← next
      namedOperand (binary (simpleWithin n)) n t
    | .intLiteral => return .int (← signedInt) t.location
    | .minus =>
      if ← seesSecond .intLiteral then return .int (← signedInt) t.location
      else
        let _ ← next
        return .unary .neg (← simpleWithin n) t.location
    | .bang =>
      let _ ← next
      return .unary .not (← simpleWithin n) t.location
    | .kwNew =>
      let _ ← next
      newArray (binary (simpleWithin n)) n t.location
    | .kwNull =>
      let _ ← next
      return .null t.location
    | .lparen =>
      let _ ← next
      let e ← binary (simpleWithin n)
      let _ ← expect .rparen
      return e
    | _ => unexpected expressionStart

/-- Reads an `Exp` with fewer than `n` tokens ahead. -/
def expressionWithin (n : Nat) : ParserOn σ Expr := binary (simpleWithin n)

end Parser

end Lpl
