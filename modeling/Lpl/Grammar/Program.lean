import Lpl.Grammar.Stmt

/-!
# Reading programs

```text
Program   ::= BEGIN VarDecl* Stm* END MethodDef* EOF
VarDecl   ::= Type ID ";"
Type      ::= "int" ( "[" "]" )*
MethodDef ::= FUN Type ID "(" Formals ")" "{" VarDecl* Stm* "}"
            | PROC ID "(" Formals ")" "{" VarDecl* Stm* "}"
Formals   ::= ε | Type ID ( "," Type ID )*
```

The end of the file is looked at and not taken, so a program that was read leaves the stream at
its end.
-/

namespace Lpl.Parser

variable {σ : Type} [TokenSource σ]

/-- Reads a `Type` with at most `n` tokens ahead. -/
def varType (n : Nat) : ParserOn σ VarType := do
  let _ ← expect .kwInt
  return ⟨← emptyBrackets n⟩

/-- Reads `Type ID`. -/
def typedName (n : Nat) : ParserOn σ Decl := do
  let t ← peek
  let type ← varType n
  let name ← identifier
  return ⟨name, type, t.location⟩

/-- Reads `VarDecl*`. -/
def declarations : Nat → ParserOn σ (List Decl)
  | 0 => exhausted
  | n + 1 => do
    if ← sees .kwInt then
      let d ← typedName n
      let _ ← expect .semicolon
      return d :: (← declarations n)
    else return []

/-- Reads `Type ID ( "," Type ID )*`. -/
def typedNames : Nat → ParserOn σ (List Decl)
  | 0 => exhausted
  | n + 1 => do
    let d ← typedName n
    if ← accept .comma then return d :: (← typedNames n) else return [d]

/-- Reads `Formals`. -/
def formals (n : Nat) : ParserOn σ (List Decl) := do
  if ← sees .kwInt then typedNames n else return []

/-- Reads `VarDecl* Stm*` up to a token of kind `stop`, and takes that token. -/
def body (stop : Token.Kind) (n : Nat) : ParserOn σ (List Decl × List Stmt) := do
  let decls ← declarations n
  let stmts ← statementsUntil (statementWithin n) stop n true
  let _ ← expect stop
  return (decls, stmts)

/-- Reads what follows a method's `FUN` and type, or its `PROC`. -/
def methodRest (n : Nat) (returnType : Option VarType) (l : Location) : ParserOn σ Method := do
  let name ← identifier
  let _ ← expect .lparen
  let params ← formals n
  let _ ← expect .rparen
  let _ ← expect .lbrace
  let (locals, stmts) ← body .rbrace n
  return { name, returnType, params, locals, body := stmts, location := l }

/-- Reads `MethodDef*`. -/
def methods : Nat → ParserOn σ (List Method)
  | 0 => exhausted
  | n + 1 => do
    let t ← peek
    match t.kind with
    | .kwFun =>
      let _ ← next
      let type ← varType n
      let m ← methodRest n (some type) t.location
      return m :: (← methods n)
    | .kwProc =>
      let _ ← next
      let m ← methodRest n none t.location
      return m :: (← methods n)
    | _ => return []

/-- Reads a `Program` with at most `n` tokens ahead. -/
def programWithin (n : Nat) : ParserOn σ Program := do
  let _ ← expect .kwBegin
  let (globals, stmts) ← Parser.body .kwEnd n
  let ms ← methods n
  if ← sees .eof then return { globals, body := stmts, methods := ms }
  else unexpected [.kwFun, .kwProc, .eof]

/-- Reads a `Program` from a stream. It fails for its tokens alone: a stream has a next token
everywhere, and the bound is not used up. -/
def program : EStateM ParseError TokenStream Program := fun s =>
  match programWithin (s.ahead.length + 1) s with
  | .ok p s' => .ok p s'
  | .error (.rejected e) s' => .error e s'
  | .error _ s' => .error (.unexpected s'.head []) s'

end Lpl.Parser

namespace Lpl

/-- The program that a token list spells. -/
def Program.ofTokens (ts : List Token) : Except ParseError Program :=
  match Parser.program (.ofTokens ts) with
  | .ok p _ => .ok p
  | .error e _ => .error e

/-- The token stream of a source text. -/
def TokenStream.ofSource (source : String) : Except ParseError TokenStream :=
  match tokenize source with
  | .ok ts => .ok (.ofTokens ts)
  | .error e => .error (.lexical e)

/-- The program that a source text spells. -/
def Program.parse (source : String) : Except ParseError Program := do
  match Parser.program (← TokenStream.ofSource source) with
  | .ok p _ => .ok p
  | .error e _ => .error e

end Lpl
