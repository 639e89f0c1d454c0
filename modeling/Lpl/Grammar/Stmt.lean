import Lpl.Grammar.Expr

/-!
# Reading statements

```text
Stm ::= ID "(" Actuals ")" ";"
      | ID ( "[" Exp "]" )* "=" Exp ";"
      | IF "(" Exp ")" Stm [ ELSE Stm ]
      | WHILE "(" Exp ")" Stm
      | SWITCH "(" Exp ")" "{" ( CASE SignedInt ":" Stm )* DEFAULT ":" Stm "}"
      | "{" Stm* "}"
      | PRINT Exp ";" | PRINTLN Exp ";" | PRINTCH Exp ";" | NEWLINE ";"
      | RETURN [ Exp ] ";"
```

An `ELSE` belongs to the nearest `IF` that can take it. As with expressions, a production is
given the parsers of the expressions and statements nested in it, and bounds count the tokens
ahead.
-/

namespace Lpl.Parser

/-- The kinds that a statement can start with. -/
def statementStart : List Token.Kind :=
  [.ident, .kwIf, .kwWhile, .kwSwitch, .lbrace, .kwPrint, .kwPrintln, .kwPrintch, .kwNewline,
    .kwReturn]

variable {σ : Type} [TokenSource σ]

section Productions

variable (expr : ParserOn σ Expr)

/-- Reads `"(" Exp ")"`. -/
def parenthesized : ParserOn σ Expr := do
  let _ ← expect .lparen
  let e ← expr
  let _ ← expect .rparen
  return e

/-- Reads what follows an identifier: a call, or an assignment to a variable or an element. -/
def namedStatement (n : Nat) (name : Token) : ParserOn σ Stmt := do
  if ← accept .lparen then
    let args ← arguments expr n
    let _ ← expect .rparen
    let _ ← expect .semicolon
    return .call name.lexeme args name.location
  else
    let indices ← indexers expr n
    if ← accept .assign then
      let value ← expr
      let _ ← expect .semicolon
      match indices with
      | [] => return .assign name.lexeme value name.location
      | _ => return .assignAt name.lexeme indices value name.location
    else
      match indices with
      | [] => unexpected [.lparen, .lbracket, .assign]
      | _ => unexpected [.lbracket, .assign]

/-- Reads what follows a print keyword at location `l`. -/
def printStatement (kind : PrintKind) (l : Location) : ParserOn σ Stmt := do
  let value ← expr
  let _ ← expect .semicolon
  return .print kind value l

/-- Reads what follows a `RETURN` at location `l`. -/
def returnStatement (l : Location) : ParserOn σ Stmt := do
  if ← accept .semicolon then return .ret none l
  else
    let value ← expr
    let _ ← expect .semicolon
    return .ret (some value) l

variable (stmt : ParserOn σ Stmt)

/-- Reads statements up to a token of kind `stop`, which stays. At the first of them a
declaration may still be possible, and is then among the alternatives that an error lists. -/
def statementsUntil (stop : Token.Kind) : Nat → (declarable : Bool) → ParserOn σ (List Stmt)
  | 0, _ => exhausted
  | n + 1, declarable => do
    let t ← peek
    if t.kind = stop then return []
    else if t.kind ∈ statementStart then
      let s ← stmt
      return s :: (← statementsUntil stop n false)
    else unexpected (alternatives declarable)
where
  alternatives (declarable : Bool) : List Token.Kind :=
    statementStart ++ stop :: if declarable then [.kwInt] else []

/-- Reads what follows an `IF` at location `l`. -/
def ifStatement (l : Location) : ParserOn σ Stmt := do
  let condition ← parenthesized expr
  let thenBranch ← stmt
  if ← accept .kwElse then return .ifElse condition thenBranch (← stmt) l
  else return .ifThen condition thenBranch l

/-- Reads what follows a `WHILE` at location `l`. -/
def whileStatement (l : Location) : ParserOn σ Stmt := do
  let condition ← parenthesized expr
  return .whileDo condition (← stmt) l

/-- Reads `( CASE SignedInt ":" Stm )*` before a `DEFAULT`. -/
def switchCases : Nat → ParserOn σ (List SwitchCase)
  | 0 => exhausted
  | n + 1 => do
    let t ← peek
    if t.kind = .kwDefault then return []
    else if t.kind = .kwCase then
      let _ ← next
      let value ← signedInt
      let _ ← expect .colon
      let body ← stmt
      return .mk value body t.location :: (← switchCases n)
    else unexpected [.kwCase, .kwDefault]

/-- Reads what follows a `SWITCH` at location `l`. -/
def switchStatement (n : Nat) (l : Location) : ParserOn σ Stmt := do
  let subject ← parenthesized expr
  let _ ← expect .lbrace
  let cases ← switchCases stmt n
  let _ ← expect .kwDefault
  let _ ← expect .colon
  let default ← stmt
  let _ ← expect .rbrace
  return .switch subject cases default l

/-- Reads what follows an opening brace at location `l`. -/
def blockStatement (n : Nat) (l : Location) : ParserOn σ Stmt := do
  let statements ← statementsUntil stmt .rbrace n false
  let _ ← expect .rbrace
  return .block statements l

end Productions

/-- Reads a `Stm` with fewer than `n` tokens ahead. -/
def statementWithin : Nat → ParserOn σ Stmt
  | 0 => exhausted
  | n + 1 => do
    let t ← peek
    match t.kind with
    | .ident =>
      let _ ← next
      namedStatement (expressionWithin n) n t
    | .kwIf =>
      let _ ← next
      ifStatement (expressionWithin n) (statementWithin n) t.location
    | .kwWhile =>
      let _ ← next
      whileStatement (expressionWithin n) (statementWithin n) t.location
    | .kwSwitch =>
      let _ ← next
      switchStatement (expressionWithin n) (statementWithin n) n t.location
    | .lbrace =>
      let _ ← next
      blockStatement (statementWithin n) n t.location
    | .kwPrint =>
      let _ ← next
      printStatement (expressionWithin n) .number t.location
    | .kwPrintln =>
      let _ ← next
      printStatement (expressionWithin n) .line t.location
    | .kwPrintch =>
      let _ ← next
      printStatement (expressionWithin n) .character t.location
    | .kwNewline =>
      let _ ← next
      let _ ← expect .semicolon
      return .newline t.location
    | .kwReturn =>
      let _ ← next
      returnStatement (expressionWithin n) t.location
    | _ => unexpected statementStart

end Lpl.Parser
