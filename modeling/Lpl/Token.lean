import Lpl.Location

/-!
# Tokens

A token is a kind, the text it was read from (its lexeme) and the location of that text. The
kinds are integer literals, identifiers, the 19 keywords, the symbols and the end of the file.
Every keyword and symbol has one spelling; `Token.Kind.spelling?` is the table of them, and
both the scanner and the error messages read it.
-/

namespace Lpl

/-- The kinds of tokens. -/
inductive Token.Kind where
  | intLiteral
  | ident
  | kwBegin | kwEnd | kwFun | kwProc
  | kwIf | kwElse | kwWhile | kwSwitch | kwCase | kwDefault
  | kwPrint | kwPrintln | kwPrintch | kwNewline | kwReturn
  | kwInt | kwNew | kwLength | kwNull
  | plus | minus | star | slash
  | less | lessEq | equalTo | andAnd | orOr | bang
  | assign
  | lparen | rparen | lbrace | rbrace | lbracket | rbracket
  | semicolon | comma | dot | colon
  | eof
deriving DecidableEq, Repr, Inhabited

namespace Token.Kind

/-- The spelling of a keyword or symbol; the other kinds have none of their own. -/
def spelling? : Kind → Option String
  | intLiteral | ident | eof => none
  | kwBegin => some "BEGIN"
  | kwEnd => some "END"
  | kwFun => some "FUN"
  | kwProc => some "PROC"
  | kwIf => some "IF"
  | kwElse => some "ELSE"
  | kwWhile => some "WHILE"
  | kwSwitch => some "SWITCH"
  | kwCase => some "CASE"
  | kwDefault => some "DEFAULT"
  | kwPrint => some "PRINT"
  | kwPrintln => some "PRINTLN"
  | kwPrintch => some "PRINTCH"
  | kwNewline => some "NEWLINE"
  | kwReturn => some "RETURN"
  | kwInt => some "int"
  | kwNew => some "new"
  | kwLength => some "length"
  | kwNull => some "null"
  | plus => some "+"
  | minus => some "-"
  | star => some "*"
  | slash => some "/"
  | less => some "<"
  | lessEq => some "<="
  | equalTo => some "=="
  | andAnd => some "&&"
  | orOr => some "||"
  | bang => some "!"
  | assign => some "="
  | lparen => some "("
  | rparen => some ")"
  | lbrace => some "\x7b"
  | rbrace => some "\x7d"
  | lbracket => some "["
  | rbracket => some "]"
  | semicolon => some ";"
  | comma => some ","
  | dot => some "."
  | colon => some ":"

/-- The words that are no identifiers. -/
def keywords : List Kind :=
  [kwBegin, kwEnd, kwFun, kwProc, kwIf, kwElse, kwWhile, kwSwitch, kwCase, kwDefault, kwPrint,
    kwPrintln, kwPrintch, kwNewline, kwReturn, kwInt, kwNew, kwLength, kwNull]

/-- The operators and punctuation marks, those of two characters first. -/
def symbols : List Kind :=
  [lessEq, equalTo, andAnd, orOr, plus, minus, star, slash, less, bang, assign, lparen, rparen,
    lbrace, rbrace, lbracket, rbracket, semicolon, comma, dot, colon]

/-- The kind of a word: the keyword it spells, or an identifier. -/
def ofWord (word : String) : Kind :=
  (keywords.find? fun k => k.spelling? = some word).getD ident

/-- The kind as error messages name it. -/
def describe (k : Kind) : String :=
  match k, k.spelling? with
  | _, some s => "'" ++ s ++ "'"
  | intLiteral, none => "integer literal"
  | ident, none => "identifier"
  | _, none => "end of file"

end Token.Kind

/-- A kind, the text it was read from and where that text starts. -/
structure Token where
  kind : Token.Kind
  lexeme : String
  location : Location
deriving DecidableEq, Repr, Inhabited

namespace Token

/-- The end of a file, which has no text. -/
def endOfFile (l : Location) : Token := ⟨.eof, "", l⟩

/-- The token as error messages name it: literals and identifiers show their text. -/
def describe (t : Token) : String :=
  match t.kind with
  | .intLiteral => "integer literal " ++ t.lexeme
  | .ident => "identifier '" ++ t.lexeme ++ "'"
  | k => k.describe

end Token

end Lpl
