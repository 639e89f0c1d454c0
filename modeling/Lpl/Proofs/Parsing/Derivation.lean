import Lpl.Numeral
import Lpl.Token
import Lpl.Tree

/-!
# The grammar as a relation

`Grammar.Program ts p` says that the tokens `ts` derive the tree `p`, and so for the other
nonterminals. The rules are those of the grammar, one constructor for each alternative, and know
nothing of streams, look-ahead or bounds. Tokens of a phrase stand side by side, and a node has the
location of the first one, or of the operator if it is a binary expression.

Three alternatives have a side condition, and these settle what the grammar leaves open.

- The operand of a unary `-` does not start with a literal: such a `-` is the sign of the literal.
- The first branch of an `IF` with an `ELSE` does not end in an `IF` that could take the `ELSE`
  (`Stmt.takesElse`).
- The value of a literal, with its sign, is a 32-bit integer.
-/

namespace Lpl

namespace Grammar

/-- A nonterminal: which tokens stand for which tree. -/
abbrev Phrase (α : Type) := List Token → α → Prop

section Lists

variable {α : Type} (P : Phrase α)

/-- `P*` -/
inductive Many : Phrase (List α)
  | nil : Many [] []
  | cons {us vs a as} : P us a → Many vs as → Many (us ++ vs) (a :: as)

/-- `P ( "," P )*` -/
inductive Separated : Phrase (List α)
  | one {us a} : P us a → Separated us [a]
  | more {us c vs a as} : P us a → c.kind = .comma → Separated vs as →
      Separated (us ++ c :: vs) (a :: as)

/-- `ε | P ( "," P )*` -/
inductive Listed : Phrase (List α)
  | none : Listed [] []
  | some {us as} : Separated P us as → Listed us as

/-- `"[" P "]"` -/
inductive Bracketed : Phrase α
  | mk {l r : Token} {us a} : l.kind = .lbracket → P us a → r.kind = .rbracket →
      Bracketed (l :: us ++ [r]) a

/-- `"(" P ")"` -/
inductive Parenthesized : Phrase α
  | mk {l r : Token} {us a} : l.kind = .lparen → P us a → r.kind = .rparen →
      Parenthesized (l :: us ++ [r]) a

end Lists

/-- `( "[" "]" )*`, and how many. -/
inductive EmptyBrackets : Phrase Nat
  | none : EmptyBrackets [] 0
  | more {l r us n} : l.kind = .lbracket → r.kind = .rbracket → EmptyBrackets us n →
      EmptyBrackets (l :: r :: us) (n + 1)

/-! ## Expressions -/

/-- `[ "-" ] INTLIT`, and the value. -/
inductive Literal : Phrase Int
  | plain {t n} : t.kind = .intLiteral → Numeral.magnitude? t.lexeme.toList = some n →
      Literal [t] n
  | negative {m t n} : m.kind = .minus → t.kind = .intLiteral →
      Numeral.magnitude? t.lexeme.toList = some n → Literal [m, t] (-n)

/-- `SignedInt ::= [ "-" ] INTLIT`, where the value has to fit 32 bits. -/
inductive SignedInt : Phrase Int32
  | mk {us v} : Literal us v → Numeral.Within Numeral.half32 v → SignedInt us (.ofInt v)

/-- `Op ::= "*" | "/" | "+" | "-" | "<" | "<=" | "==" | "&&" | "||"` -/
inductive Op : Token.Kind → BinaryOp → Prop
  | mul : Op .star .mul
  | div : Op .slash .div
  | add : Op .plus .add
  | sub : Op .minus .sub
  | less : Op .less .less
  | lessEq : Op .lessEq .lessEq
  | equal : Op .equalTo .equal
  | and : Op .andAnd .and
  | or : Op .orOr .or

/-- The variable that a token names, or the element of it with the given indices. -/
def reference (x : Token) : List Expr → Expr
  | [] => .var x.lexeme x.location
  | es => .index x.lexeme es x.location

mutual

/-- `Exp ::= SimpleExp [ Op SimpleExp ]` -/
inductive Exp : Phrase Expr
  | simple {us e} : SimpleExp us e → Exp us e
  | binary {us o vs op a b} : SimpleExp us a → Op o.kind op → SimpleExp vs b →
      Exp (us ++ o :: vs) (.binary op a b o.location)

/-- Operands, and expressions in parentheses.
```text
SimpleExp ::= ID "(" Actuals ")"
            | ID ( "[" Exp "]" )* [ "." "length" ]
            | SignedInt | "-" SimpleExp | "!" SimpleExp
            | "new" "int" "[" Exp "]" ( "[" Exp "]" )* ( "[" "]" )*
            | "null" | "(" Exp ")"
```
-/
inductive SimpleExp : Phrase Expr
  | call {x us es} : x.kind = .ident → Parenthesized (Listed Exp) us es →
      SimpleExp (x :: us) (.call x.lexeme es x.location)
  | named {x us es} : x.kind = .ident → Many (Bracketed Exp) us es →
      SimpleExp (x :: us) (reference x es)
  | length {x d k : Token} {us es} : x.kind = .ident → Many (Bracketed Exp) us es →
      d.kind = .dot → k.kind = .kwLength →
      SimpleExp (x :: us ++ [d, k]) (.length (reference x es) x.location)
  | int {t us v} : SignedInt (t :: us) v → SimpleExp (t :: us) (.int v t.location)
  | neg {m t us e} : m.kind = .minus → t.kind ≠ .intLiteral → SimpleExp (t :: us) e →
      SimpleExp (m :: t :: us) (.unary .neg e m.location)
  | not {b us e} : b.kind = .bang → SimpleExp us e →
      SimpleExp (b :: us) (.unary .not e b.location)
  | new {w i us vs ws e es n} : w.kind = .kwNew → i.kind = .kwInt → Bracketed Exp us e →
      Many (Bracketed Exp) vs es → EmptyBrackets ws n →
      SimpleExp (w :: i :: us ++ vs ++ ws) (.new (e :: es) n w.location)
  | null {t} : t.kind = .kwNull → SimpleExp [t] (.null t.location)
  | parens {us e} : Parenthesized Exp us e → SimpleExp us e

end

end Grammar

/-! ## Statements -/

/-- Whether the statement ends in an `IF` that an `ELSE` behind it would belong to. -/
def Stmt.takesElse : Stmt → Bool
  | .ifThen .. => true
  | .ifElse _ _ s _ | .whileDo _ s _ => s.takesElse
  | _ => false

namespace Grammar

/-- The assignment to a variable, or to the element of it with the given indices. -/
def assignment (x : Token) (e : Expr) : List Expr → Stmt
  | [] => .assign x.lexeme e x.location
  | es => .assignAt x.lexeme es e x.location

/-- The keywords that print. -/
inductive Print : Token.Kind → PrintKind → Prop
  | number : Print .kwPrint .number
  | line : Print .kwPrintln .line
  | character : Print .kwPrintch .character

/-- `CASE SignedInt ":" Stm` -/
inductive Case (Stm : Phrase Stmt) : Phrase SwitchCase
  | mk {c us d vs v s} : c.kind = .kwCase → SignedInt us v → d.kind = .colon → Stm vs s →
      Case Stm (c :: us ++ d :: vs) (.mk v s c.location)

/-- Statements.
```text
Stm ::= ID "(" Actuals ")" ";"
      | ID ( "[" Exp "]" )* "=" Exp ";"
      | IF "(" Exp ")" Stm [ ELSE Stm ]
      | WHILE "(" Exp ")" Stm
      | SWITCH "(" Exp ")" "{" ( CASE SignedInt ":" Stm )* DEFAULT ":" Stm "}"
      | "{" Stm* "}"
      | PRINT Exp ";" | PRINTLN Exp ";" | PRINTCH Exp ";" | NEWLINE ";"
      | RETURN [ Exp ] ";"
```
-/
inductive Stm : Phrase Stmt
  | call {x z : Token} {us es} : x.kind = .ident → Parenthesized (Listed Exp) us es →
      z.kind = .semicolon → Stm (x :: us ++ [z]) (.call x.lexeme es x.location)
  | assign {x q z : Token} {us vs es e} : x.kind = .ident → Many (Bracketed Exp) us es →
      q.kind = .assign → Exp vs e → z.kind = .semicolon →
      Stm (x :: us ++ q :: vs ++ [z]) (assignment x e es)
  | ifThen {i us vs c s} : i.kind = .kwIf → Parenthesized Exp us c → Stm vs s →
      Stm (i :: us ++ vs) (.ifThen c s i.location)
  | ifElse {i us vs j ws c s t} : i.kind = .kwIf → Parenthesized Exp us c → Stm vs s →
      s.takesElse = false → j.kind = .kwElse → Stm ws t →
      Stm (i :: us ++ vs ++ j :: ws) (.ifElse c s t i.location)
  | whileDo {w us vs c s} : w.kind = .kwWhile → Parenthesized Exp us c → Stm vs s →
      Stm (w :: us ++ vs) (.whileDo c s w.location)
  | switch {w l d k r : Token} {us vs ws e cs s} : w.kind = .kwSwitch →
      Parenthesized Exp us e → l.kind = .lbrace → Many (Case Stm) vs cs →
      d.kind = .kwDefault → k.kind = .colon → Stm ws s → r.kind = .rbrace →
      Stm (w :: us ++ l :: vs ++ d :: k :: ws ++ [r]) (.switch e cs s w.location)
  | block {l r : Token} {us ss} : l.kind = .lbrace → Many Stm us ss → r.kind = .rbrace →
      Stm (l :: us ++ [r]) (.block ss l.location)
  | print {w z : Token} {us k e} : Print w.kind k → Exp us e → z.kind = .semicolon →
      Stm (w :: us ++ [z]) (.print k e w.location)
  | newline {w z} : w.kind = .kwNewline → z.kind = .semicolon → Stm [w, z] (.newline w.location)
  | ret {w z} : w.kind = .kwReturn → z.kind = .semicolon → Stm [w, z] (.ret none w.location)
  | retValue {w z : Token} {us e} : w.kind = .kwReturn → Exp us e → z.kind = .semicolon →
      Stm (w :: us ++ [z]) (.ret (some e) w.location)

/-! ## Declarations and programs -/

/-- `Type ::= "int" ( "[" "]" )*` -/
inductive TypeName : Phrase VarType
  | mk {t us n} : t.kind = .kwInt → EmptyBrackets us n → TypeName (t :: us) ⟨n⟩

/-- `Type ID` -/
inductive TypedName : Phrase Decl
  | mk {t x : Token} {us ty} : TypeName (t :: us) ty → x.kind = .ident →
      TypedName (t :: us ++ [x]) ⟨x.lexeme, ty, t.location⟩

/-- `VarDecl ::= Type ID ";"` -/
inductive VarDecl : Phrase Decl
  | mk {z : Token} {us d} : TypedName us d → z.kind = .semicolon → VarDecl (us ++ [z]) d

/-- `VarDecl* Stm*` between tokens of the given kinds. -/
inductive Body (opening closing : Token.Kind) : Phrase (List Decl × List Stmt)
  | mk {l r : Token} {us vs ds ss} : l.kind = opening → Many VarDecl us ds → Many Stm vs ss →
      r.kind = closing → Body opening closing (l :: us ++ vs ++ [r]) (ds, ss)

/-- What follows the keyword and the type of a method: `ID "(" Formals ")" "{" VarDecl* Stm* "}"`,
where `Formals ::= ε | Type ID ( "," Type ID )*`. -/
inductive MethodRest (type : Option VarType) (location : Location) : Phrase Method
  | mk {x us vs ps ds ss} : x.kind = .ident → Parenthesized (Listed TypedName) us ps →
      Body .lbrace .rbrace vs (ds, ss) →
      MethodRest type location (x :: us ++ vs) ⟨⟨x.lexeme, type, ps, ds⟩, ss, location⟩

/-- `MethodDef ::= FUN Type ID … | PROC ID …` -/
inductive MethodDef : Phrase Method
  | function {f us vs ty m} : f.kind = .kwFun → TypeName us ty →
      MethodRest (some ty) f.location vs m → MethodDef (f :: us ++ vs) m
  | procedure {f us m} : f.kind = .kwProc → MethodRest none f.location us m →
      MethodDef (f :: us) m

/-- `Program ::= BEGIN VarDecl* Stm* END MethodDef*`, and then the end of the file. -/
inductive Program : Phrase Lpl.Program
  | mk {us vs ds ss ms} : Body .kwBegin .kwEnd us (ds, ss) → Many MethodDef vs ms →
      Program (us ++ vs) ⟨ds, ss, ms⟩

end Grammar

end Lpl
