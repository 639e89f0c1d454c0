import Lpl.Grammar.Program

/-!
# Parsers on sources that mirror each other

**Theorem (`corresponds_programWithin`).** From sources of two kinds that mirror each other, programs are
read in the same way: with the same tree or error up to locations, and up to sources that mirror each
other again.

All that a parser sees of its source is the next token, behind a `-` the one after it, and what is left
when a token is taken. A `Mirror` is a relation between sources for which these are the same, up to what
it does to locations (`Relocation`). `Corresponds f x y`: from related sources `x` and `y` come to results
that agree, with `f` applied. This is kept by every way to build a parser, so each production is gone
through once.
-/

namespace Lpl

/-! ## Changes of locations -/

/-- The expression with `g` applied to its location and `f` to the expressions inside. -/
def Expr.mapParts (g : Location → Location) (f : Expr → Expr) : Expr → Expr
  | .int v l => .int v (g l)
  | .null l => .null (g l)
  | .var x l => .var x (g l)
  | .unary op e l => .unary op (f e) (g l)
  | .binary op a b l => .binary op (f a) (f b) (g l)
  | .index x es l => .index x (es.map f) (g l)
  | .length a l => .length (f a) (g l)
  | .new es n l => .new (es.map f) n (g l)
  | .call x es l => .call x (es.map f) (g l)

/-- The statement with `g` applied to its location, `f` to the expressions inside and `h` to the
statements. -/
def Stmt.mapParts (g : Location → Location) (f : Expr → Expr) (h : Stmt → Stmt) : Stmt → Stmt
  | .assign x e l => .assign x (f e) (g l)
  | .assignAt x es e l => .assignAt x (es.map f) (f e) (g l)
  | .ifThen c s l => .ifThen (f c) (h s) (g l)
  | .ifElse c s t l => .ifElse (f c) (h s) (h t) (g l)
  | .whileDo c s l => .whileDo (f c) (h s) (g l)
  | .switch e cs d l =>
    .switch (f e) (cs.map fun c => .mk c.value (h c.body) (g c.location)) (h d) (g l)
  | .block ss l => .block (ss.map h) (g l)
  | .print k e l => .print k (f e) (g l)
  | .newline l => .newline (g l)
  | .ret v l => .ret (v.map f) (g l)
  | .call x es l => .call x (es.map f) (g l)

/-- Something that is done to all locations of trees, and to nothing else of them. -/
structure Relocation where
  location : Location → Location
  expr : Expr → Expr
  stmt : Stmt → Stmt
  expr_eq : ∀ e, expr e = e.mapParts location expr
  stmt_eq : ∀ s, stmt s = s.mapParts location expr stmt

namespace Relocation

variable (r : Relocation)

def token (t : Token) : Token := { t with location := r.location t.location }

def error : ParseError → ParseError
  | .lexical e => .lexical { e with location := r.location e.location }
  | .unexpected found expected => .unexpected (r.token found) expected
  | .literalOutOfRange literal value => .literalOutOfRange (r.token literal) value

def stop : ParseStop → ParseStop
  | .rejected e => .rejected (r.error e)
  | .outOfRange => .outOfRange
  | .exhausted => .exhausted

def switchCase (c : SwitchCase) : SwitchCase := .mk c.value (r.stmt c.body) (r.location c.location)

def decl (d : Decl) : Decl := { d with location := r.location d.location }

def method (m : Method) : Method where
  name := m.name
  returnType := m.returnType
  params := m.params.map r.decl
  locals := m.locals.map r.decl
  body := m.body.map r.stmt
  location := r.location m.location

def program (p : Program) : Program where
  globals := p.globals.map r.decl
  body := p.body.map r.stmt
  methods := p.methods.map r.method

@[simp] theorem kind_token (t : Token) : (r.token t).kind = t.kind := rfl

@[simp] theorem lexeme_token (t : Token) : (r.token t).lexeme = t.lexeme := rfl

@[simp] theorem location_token (t : Token) : (r.token t).location = r.location t.location := rfl

/-- Nothing is done. -/
def identity : Relocation where
  location := id
  expr := id
  stmt := id
  expr_eq e := by cases e <;> simp [Expr.mapParts]
  stmt_eq s := by
    cases s with
    | switch e cs d l =>
      have hcase : (fun c : SwitchCase => SwitchCase.mk c.value c.body c.location) = id := by
        funext ⟨_, _, _⟩
        rfl
      simp [Stmt.mapParts, hcase]
    | _ => simp [Stmt.mapParts]

theorem token_identity : identity.token = id := rfl

theorem stop_identity : identity.stop = id := by
  funext stop
  cases stop with
  | rejected e => cases e <;> rfl
  | outOfRange | exhausted => rfl

theorem program_identity : identity.program = id := by
  have hdecl : identity.decl = id := rfl
  have hstmt : identity.stmt = id := rfl
  have hmethod : identity.method = id := by
    funext m
    simp only [method, hdecl, hstmt, List.map_id]
    rfl
  funext p
  simp only [program, hdecl, hstmt, hmethod, List.map_id]
  rfl

end Relocation

/-! ## Mirrors -/

/-- Sources of two kinds that show the same tokens up to locations, and still do when one is taken. What
is behind an end of file may differ. -/
structure Mirror (σ τ : Type) [TokenSource σ] [TokenSource τ] extends Relocation where
  Related : σ → τ → Prop
  peek?_eq : ∀ {s t}, Related s t → TokenSource.peek? t = (TokenSource.peek? s).map toRelocation.token
  second?_eq : ∀ {s t u}, Related s t → TokenSource.peek? s = some u → u.kind ≠ .eof →
    TokenSource.second? t = (TokenSource.second? s).map toRelocation.token
  advance : ∀ {s t}, Related s t → Related (TokenSource.advance s) (TokenSource.advance t)

namespace Mirror

variable {σ τ α β γ δ : Type} [TokenSource σ] [TokenSource τ]

/-- Sources that show the very same tokens. -/
def exact (Related : σ → τ → Prop)
    (hpeek : ∀ {s t}, Related s t → TokenSource.peek? t = TokenSource.peek? s)
    (hsecond : ∀ {s t u}, Related s t → TokenSource.peek? s = some u → u.kind ≠ .eof →
      TokenSource.second? t = TokenSource.second? s)
    (hadvance : ∀ {s t}, Related s t → Related (TokenSource.advance s) (TokenSource.advance t)) :
    Mirror σ τ where
  toRelocation := .identity
  Related := Related
  peek?_eq h := by rw [hpeek h, Relocation.token_identity, Option.map_id, id]
  second?_eq h hu hne := by rw [hsecond h hu hne, Relocation.token_identity, Option.map_id, id]
  advance := hadvance

/-- Two results that are the same up to `f` and to locations, on sources that are related. -/
inductive Agree (M : Mirror σ τ) (f : α → β) :
    EStateM.Result ParseStop σ α → EStateM.Result ParseStop τ β → Prop
  | ok {a s t} : M.Related s t → Agree M f (.ok a s) (.ok (f a) t)
  | error {e s t} : M.Related s t → Agree M f (.error e s) (.error (M.stop e) t)

/-- From related sources the two parsers come to results that agree. -/
def Corresponds (M : Mirror σ τ) (f : α → β) (x : ParserOn σ α) (y : ParserOn τ β) : Prop :=
  ∀ ⦃s t⦄, M.Related s t → M.Agree f (x s) (y t)

variable {M : Mirror σ τ} {f : α → β} {g : γ → δ} {x : ParserOn σ α} {y : ParserOn τ β}

theorem Corresponds.bind {k : α → ParserOn σ γ} {k' : β → ParserOn τ δ} (hx : M.Corresponds f x y)
    (hk : ∀ a, M.Corresponds g (k a) (k' (f a))) : M.Corresponds g (x >>= k) (y >>= k') := by
  intro s t h
  show M.Agree g (EStateM.bind x k s) (EStateM.bind y k' t)
  have hxy := hx h
  unfold EStateM.bind
  generalize x s = rx at hxy ⊢
  generalize y t = ry at hxy ⊢
  cases hxy with
  | ok h' => exact hk _ h'
  | error h' => exact .error h'

theorem Corresponds.ite {c : Prop} [Decidable c] {x' : ParserOn σ α} {y' : ParserOn τ β}
    (hx : M.Corresponds f x y) (hx' : M.Corresponds f x' y') :
    M.Corresponds f (if c then x else x') (if c then y else y') := by
  split
  · exact hx
  · exact hx'

end Mirror

namespace Parser

open Mirror

variable {σ τ α β : Type} [TokenSource σ] [TokenSource τ] {M : Mirror σ τ} {f : α → β}

theorem corresponds_pure (a : α) : M.Corresponds f (pure a) (pure (f a)) := fun _ _ h => .ok h

theorem corresponds_return {a : α} {b : β} (hab : f a = b) : M.Corresponds f (pure a) (pure b) :=
  hab ▸ corresponds_pure a

theorem corresponds_reject (e : ParseError) : M.Corresponds f (reject e) (reject (M.error e)) :=
  fun _ _ h => .error h

theorem corresponds_exhausted : M.Corresponds f exhausted exhausted := fun _ _ h => .error h

/-! ## Single tokens -/

/-- The parsers may depend on the token that they look at being the next one. -/
theorem corresponds_bind_peek {k : Token → ParserOn σ α} {k' : Token → ParserOn τ β}
    (hk : ∀ {s t u}, M.Related s t → TokenSource.peek? s = some u →
      M.Agree f (k u s) (k' (M.token u) t)) :
    M.Corresponds f (peek >>= k) (peek >>= k') := by
  intro s t h
  have hpeek := M.peek?_eq h
  show M.Agree f (EStateM.bind peek k s) (EStateM.bind peek k' t)
  cases hs : TokenSource.peek? s with
  | none =>
    rw [hs] at hpeek
    simp only [EStateM.bind, peek, hs, hpeek, Option.map_none]
    exact .error h
  | some u =>
    rw [hs] at hpeek
    simp only [EStateM.bind, peek, hs, hpeek, Option.map_some]
    exact hk h hs

theorem corresponds_peek : M.Corresponds M.token peek peek := by
  rw [← bind_pure (peek : ParserOn σ Token), ← bind_pure (peek : ParserOn τ Token)]
  exact corresponds_bind_peek fun h _ => .ok h

theorem corresponds_next : M.Corresponds M.token next next :=
  corresponds_peek.bind fun _ _ _ h => .ok (M.advance h)

theorem corresponds_unexpected (expected : List Token.Kind) :
    M.Corresponds f (unexpected expected) (unexpected expected) :=
  corresponds_peek.bind fun t => corresponds_reject (.unexpected t expected)

theorem corresponds_sees (k : Token.Kind) : M.Corresponds id (sees k) (sees k) :=
  corresponds_peek.bind fun t => corresponds_pure (decide (t.kind = k))

/-- The token after the next one, unless that is an end of file. -/
theorem agree_bind_seesSecond {k : Token.Kind} {s : σ} {t : τ} {u : Token} (h : M.Related s t)
    (hu : TokenSource.peek? s = some u) (hne : u.kind ≠ .eof) {x : Bool → ParserOn σ α}
    {y : Bool → ParserOn τ β} (hxy : ∀ b, M.Corresponds f (x b) (y b)) :
    M.Agree f ((seesSecond k >>= x) s) ((seesSecond k >>= y) t) := by
  show M.Agree f (x ((TokenSource.second? s).any fun t => t.kind = k) s)
    (y ((TokenSource.second? t).any fun t => t.kind = k) t)
  rw [M.second?_eq h hu hne, Option.any_map]
  exact hxy _ h

theorem corresponds_accept (k : Token.Kind) : M.Corresponds id (accept k) (accept k) :=
  corresponds_peek.bind fun _ => .ite (corresponds_next.bind fun _ => corresponds_pure true)
    (corresponds_pure false)

theorem corresponds_expect (k : Token.Kind) : M.Corresponds M.token (expect k) (expect k) :=
  corresponds_peek.bind fun _ => .ite corresponds_next (corresponds_unexpected [k])

theorem corresponds_identifier : M.Corresponds id identifier identifier :=
  (corresponds_expect .ident).bind fun t => corresponds_pure t.lexeme

/-! ## Expressions -/

theorem literalValue_token (r : Relocation) (negative : Bool) (t : Token) :
    literalValue negative (r.token t) = (literalValue negative t).mapError r.error := by
  simp only [literalValue, Relocation.lexeme_token]
  cases Numeral.read? Numeral.half64 t.lexeme with
  | none => rfl
  | some n =>
    dsimp only
    generalize (if negative = true then Numeral.negate64 n else n) = value
    split
    · rfl
    · rfl

theorem corresponds_magnitude (negative : Bool) :
    M.Corresponds id (magnitude negative) (magnitude negative) := by
  refine (corresponds_expect .intLiteral).bind fun literal => ?_
  rw [literalValue_token]
  cases literalValue negative literal with
  | ok v => exact corresponds_pure v
  | error e => exact corresponds_reject e

theorem corresponds_signedInt : M.Corresponds id signedInt signedInt :=
  (corresponds_accept .minus).bind corresponds_magnitude

theorem corresponds_emptyBrackets (n : Nat) : M.Corresponds id (emptyBrackets n) (emptyBrackets n) := by
  induction n with
  | zero => exact corresponds_exhausted
  | succ n ih =>
    refine (corresponds_accept .lbracket).bind fun _ => .ite ?_ (corresponds_pure 0)
    exact (corresponds_expect .rbracket).bind fun _ => ih.bind fun k => corresponds_pure (k + 1)

section Expressions

variable {expr : ParserOn σ Expr} {expr' : ParserOn τ Expr} (hexpr : M.Corresponds M.expr expr expr')

include hexpr

theorem corresponds_indexers (n : Nat) :
    M.Corresponds (List.map M.expr) (indexers expr n) (indexers expr' n) := by
  induction n with
  | zero => exact corresponds_exhausted
  | succ n ih =>
    refine (corresponds_accept .lbracket).bind fun _ => .ite ?_ (corresponds_pure [])
    exact hexpr.bind fun e => (corresponds_expect .rbracket).bind fun _ => ih.bind fun es =>
      corresponds_pure (e :: es)

theorem corresponds_expressions (n : Nat) :
    M.Corresponds (List.map M.expr) (expressions expr n) (expressions expr' n) := by
  induction n with
  | zero => exact corresponds_exhausted
  | succ n ih =>
    refine hexpr.bind fun e => (corresponds_accept .comma).bind fun _ => .ite ?_ (corresponds_pure [e])
    exact ih.bind fun es => corresponds_pure (e :: es)

theorem corresponds_arguments (n : Nat) :
    M.Corresponds (List.map M.expr) (arguments expr n) (arguments expr' n) :=
  (corresponds_sees .rparen).bind fun _ => (corresponds_pure []).ite (corresponds_expressions hexpr n)

theorem corresponds_dimensions (n : Nat) :
    M.Corresponds (Prod.map (List.map M.expr) id) (dimensions expr n) (dimensions expr' n) := by
  induction n with
  | zero => exact corresponds_exhausted
  | succ n ih =>
    refine (corresponds_accept .lbracket).bind fun _ => .ite ?_ (corresponds_pure ([], 0))
    refine (corresponds_accept .rbracket).bind fun _ => .ite ?_ ?_
    · exact (corresponds_emptyBrackets n).bind fun k => corresponds_pure ([], k + 1)
    · exact hexpr.bind fun e => (corresponds_expect .rbracket).bind fun _ => ih.bind fun p =>
        corresponds_pure (e :: p.1, p.2)

theorem corresponds_newArray (n : Nat) (l : Location) :
    M.Corresponds M.expr (newArray expr n l) (newArray expr' n (M.location l)) :=
  (corresponds_expect .kwInt).bind fun _ => (corresponds_expect .lbracket).bind fun _ =>
    hexpr.bind fun _ => (corresponds_expect .rbracket).bind fun _ =>
    (corresponds_dimensions hexpr n).bind fun _ => corresponds_return (M.expr_eq _)

theorem corresponds_namedOperand (n : Nat) (name : Token) :
    M.Corresponds M.expr (namedOperand expr n name) (namedOperand expr' n (M.token name)) := by
  refine (corresponds_accept .lparen).bind fun _ => .ite ?_ ?_
  · exact (corresponds_arguments hexpr n).bind fun _ => (corresponds_expect .rparen).bind fun _ =>
      corresponds_return (M.expr_eq _)
  · refine (corresponds_indexers hexpr n).bind fun es => (corresponds_accept .dot).bind fun _ => ?_
    have hlength {e e' : Expr} {l : Location} (h : M.expr e = e') :
        M.expr (.length e l) = .length e' (M.location l) :=
      (M.expr_eq _).trans (congrArg (Expr.length · _) h)
    cases es <;> exact .ite ((corresponds_expect .kwLength).bind fun _ =>
      corresponds_return (hlength (M.expr_eq _))) (corresponds_return (M.expr_eq _))

end Expressions

theorem corresponds_binary {simple : ParserOn σ Expr} {simple' : ParserOn τ Expr}
    (h : M.Corresponds M.expr simple simple') : M.Corresponds M.expr (binary simple) (binary simple') := by
  refine h.bind fun left => corresponds_peek.bind fun t => ?_
  simp only [Relocation.kind_token, Relocation.location_token]
  cases BinaryOp.ofKind? t.kind with
  | none => exact corresponds_pure left
  | some op =>
    exact corresponds_next.bind fun _ => h.bind fun right => corresponds_return (M.expr_eq _)

theorem corresponds_simpleWithin (n : Nat) :
    M.Corresponds M.expr (simpleWithin n) (simpleWithin n) := by
  induction n with
  | zero => exact corresponds_exhausted
  | succ n ih =>
    have hint (l : Location) : M.Corresponds M.expr (return .int (← signedInt) l)
        (return .int (← signedInt) (M.location l)) :=
      corresponds_signedInt.bind fun _ => corresponds_return (M.expr_eq _)
    -- only behind a `-` is the token after the next one looked at
    refine corresponds_bind_peek fun {s t u} h hu => ?_
    have hagree {x : ParserOn σ Expr} {y : ParserOn τ Expr} (hxy : M.Corresponds M.expr x y) :
      M.Agree M.expr (x s) (y t) := hxy h
    simp only [Relocation.kind_token, Relocation.location_token]
    cases hk : u.kind with
    | ident =>
      exact hagree (corresponds_next.bind fun _ => corresponds_namedOperand (corresponds_binary ih) n u)
    | intLiteral => exact hagree (hint u.location)
    | minus =>
      refine agree_bind_seesSecond h hu (by simp [hk]) fun b => (hint u.location).ite ?_
      exact corresponds_next.bind fun _ => ih.bind fun _ => corresponds_return (M.expr_eq _)
    | bang =>
      exact hagree (corresponds_next.bind fun _ => ih.bind fun _ => corresponds_return (M.expr_eq _))
    | kwNew =>
      exact hagree
        (corresponds_next.bind fun _ => corresponds_newArray (corresponds_binary ih) n u.location)
    | kwNull => exact hagree (corresponds_next.bind fun _ => corresponds_return (M.expr_eq _))
    | lparen =>
      exact hagree (corresponds_next.bind fun _ => (corresponds_binary ih).bind fun e =>
        (corresponds_expect .rparen).bind fun _ => corresponds_pure e)
    | _ => exact hagree (corresponds_unexpected _)

theorem corresponds_expressionWithin (n : Nat) :
    M.Corresponds M.expr (expressionWithin n) (expressionWithin n) :=
  corresponds_binary (corresponds_simpleWithin n)

/-! ## Statements -/

section Statements

variable {expr : ParserOn σ Expr} {expr' : ParserOn τ Expr} (hexpr : M.Corresponds M.expr expr expr')

include hexpr

theorem corresponds_parenthesized :
    M.Corresponds M.expr (parenthesized expr) (parenthesized expr') :=
  (corresponds_expect .lparen).bind fun _ => hexpr.bind fun e => (corresponds_expect .rparen).bind fun _ =>
    corresponds_pure e

theorem corresponds_namedStatement (n : Nat) (name : Token) :
    M.Corresponds M.stmt (namedStatement expr n name) (namedStatement expr' n (M.token name)) := by
  refine (corresponds_accept .lparen).bind fun _ => .ite ?_ ?_
  · exact (corresponds_arguments hexpr n).bind fun _ => (corresponds_expect .rparen).bind fun _ =>
      (corresponds_expect .semicolon).bind fun _ => corresponds_return (M.stmt_eq _)
  · refine (corresponds_indexers hexpr n).bind fun es => (corresponds_accept .assign).bind fun _ => ?_
    refine .ite (hexpr.bind fun _ => (corresponds_expect .semicolon).bind fun _ => ?_) ?_
    · cases es <;> exact corresponds_return (M.stmt_eq _)
    · cases es <;> exact corresponds_unexpected _

theorem corresponds_printStatement (kind : PrintKind) (l : Location) :
    M.Corresponds M.stmt (printStatement expr kind l) (printStatement expr' kind (M.location l)) :=
  hexpr.bind fun _ => (corresponds_expect .semicolon).bind fun _ => corresponds_return (M.stmt_eq _)

theorem corresponds_returnStatement (l : Location) :
    M.Corresponds M.stmt (returnStatement expr l) (returnStatement expr' (M.location l)) := by
  refine (corresponds_accept .semicolon).bind fun _ => .ite (corresponds_return (M.stmt_eq _)) ?_
  exact hexpr.bind fun _ => (corresponds_expect .semicolon).bind fun _ =>
    corresponds_return (M.stmt_eq _)

omit hexpr

variable {stmt : ParserOn σ Stmt} {stmt' : ParserOn τ Stmt} (hstmt : M.Corresponds M.stmt stmt stmt')

include hstmt

theorem corresponds_statementsUntil (stop : Token.Kind) (n : Nat) (declarable : Bool) :
    M.Corresponds (List.map M.stmt) (statementsUntil stmt stop n declarable)
      (statementsUntil stmt' stop n declarable) := by
  induction n generalizing declarable with
  | zero => exact corresponds_exhausted
  | succ n ih =>
    refine corresponds_peek.bind fun t =>
      .ite (corresponds_pure []) (.ite ?_ (corresponds_unexpected _))
    exact hstmt.bind fun s => (ih false).bind fun ss => corresponds_pure (s :: ss)

theorem corresponds_switchCases (n : Nat) :
    M.Corresponds (List.map M.switchCase) (switchCases stmt n) (switchCases stmt' n) := by
  induction n with
  | zero => exact corresponds_exhausted
  | succ n ih =>
    refine corresponds_peek.bind fun t =>
      .ite (corresponds_pure []) (.ite ?_ (corresponds_unexpected _))
    exact corresponds_next.bind fun _ => corresponds_signedInt.bind fun v =>
      (corresponds_expect .colon).bind fun _ => hstmt.bind fun s => ih.bind fun cs =>
      corresponds_pure (.mk v s t.location :: cs)

theorem corresponds_blockStatement (n : Nat) (l : Location) :
    M.Corresponds M.stmt (blockStatement stmt n l) (blockStatement stmt' n (M.location l)) :=
  (corresponds_statementsUntil hstmt .rbrace n false).bind fun _ =>
    (corresponds_expect .rbrace).bind fun _ => corresponds_return (M.stmt_eq _)

include hexpr

theorem corresponds_ifStatement (l : Location) :
    M.Corresponds M.stmt (ifStatement expr stmt l) (ifStatement expr' stmt' (M.location l)) := by
  refine (corresponds_parenthesized hexpr).bind fun _ => hstmt.bind fun _ =>
    (corresponds_accept .kwElse).bind fun _ => .ite ?_ (corresponds_return (M.stmt_eq _))
  exact hstmt.bind fun _ => corresponds_return (M.stmt_eq _)

theorem corresponds_whileStatement (l : Location) :
    M.Corresponds M.stmt (whileStatement expr stmt l) (whileStatement expr' stmt' (M.location l)) :=
  (corresponds_parenthesized hexpr).bind fun _ => hstmt.bind fun _ => corresponds_return (M.stmt_eq _)

theorem corresponds_switchStatement (n : Nat) (l : Location) :
    M.Corresponds M.stmt (switchStatement expr stmt n l)
      (switchStatement expr' stmt' n (M.location l)) :=
  (corresponds_parenthesized hexpr).bind fun _ => (corresponds_expect .lbrace).bind fun _ =>
    (corresponds_switchCases hstmt n).bind fun _ => (corresponds_expect .kwDefault).bind fun _ =>
    (corresponds_expect .colon).bind fun _ => hstmt.bind fun _ => (corresponds_expect .rbrace).bind fun _ =>
    corresponds_return (M.stmt_eq _)

end Statements

theorem corresponds_statementWithin (n : Nat) :
    M.Corresponds M.stmt (statementWithin n) (statementWithin n) := by
  induction n with
  | zero => exact corresponds_exhausted
  | succ n ih =>
    have hexpr := corresponds_expressionWithin (M := M) n
    refine corresponds_peek.bind fun t => ?_
    simp only [Relocation.kind_token, Relocation.location_token]
    cases t.kind with
    | ident => exact corresponds_next.bind fun _ => corresponds_namedStatement hexpr n t
    | kwIf => exact corresponds_next.bind fun _ => corresponds_ifStatement hexpr ih t.location
    | kwWhile => exact corresponds_next.bind fun _ => corresponds_whileStatement hexpr ih t.location
    | kwSwitch => exact corresponds_next.bind fun _ => corresponds_switchStatement hexpr ih n t.location
    | lbrace => exact corresponds_next.bind fun _ => corresponds_blockStatement ih n t.location
    | kwPrint | kwPrintln | kwPrintch =>
      exact corresponds_next.bind fun _ => corresponds_printStatement hexpr _ t.location
    | kwNewline =>
      exact corresponds_next.bind fun _ => (corresponds_expect .semicolon).bind fun _ =>
        corresponds_return (M.stmt_eq _)
    | kwReturn => exact corresponds_next.bind fun _ => corresponds_returnStatement hexpr t.location
    | _ => exact corresponds_unexpected _

/-! ## Programs -/

theorem corresponds_varType (n : Nat) : M.Corresponds id (varType n) (varType n) :=
  (corresponds_expect .kwInt).bind fun _ => (corresponds_emptyBrackets n).bind fun k =>
    corresponds_pure (VarType.mk k)

theorem corresponds_typedName (n : Nat) : M.Corresponds M.decl (typedName n) (typedName n) :=
  corresponds_peek.bind fun t => (corresponds_varType n).bind fun type =>
    corresponds_identifier.bind fun name => corresponds_pure (Decl.mk name type t.location)

theorem corresponds_declarations (n : Nat) :
    M.Corresponds (List.map M.decl) (declarations n) (declarations n) := by
  induction n with
  | zero => exact corresponds_exhausted
  | succ n ih =>
    refine (corresponds_sees .kwInt).bind fun _ => .ite ?_ (corresponds_pure [])
    exact (corresponds_typedName n).bind fun d => (corresponds_expect .semicolon).bind fun _ =>
      ih.bind fun ds => corresponds_pure (d :: ds)

theorem corresponds_typedNames (n : Nat) :
    M.Corresponds (List.map M.decl) (typedNames n) (typedNames n) := by
  induction n with
  | zero => exact corresponds_exhausted
  | succ n ih =>
    refine (corresponds_typedName n).bind fun d => (corresponds_accept .comma).bind fun _ =>
      .ite ?_ (corresponds_pure [d])
    exact ih.bind fun ds => corresponds_pure (d :: ds)

theorem corresponds_formals (n : Nat) :
    M.Corresponds (List.map M.decl) (formals n) (formals n) :=
  (corresponds_sees .kwInt).bind fun _ => (corresponds_typedNames n).ite (corresponds_pure [])

theorem corresponds_body (stop : Token.Kind) (n : Nat) :
    M.Corresponds (Prod.map (List.map M.decl) (List.map M.stmt)) (Parser.body stop n)
      (Parser.body stop n) :=
  (corresponds_declarations n).bind fun ds =>
    (corresponds_statementsUntil (corresponds_statementWithin n) stop n true).bind fun ss =>
    (corresponds_expect stop).bind fun _ => corresponds_pure (ds, ss)

theorem corresponds_methodRest (n : Nat) (type : Option VarType) (l : Location) :
    M.Corresponds M.method (methodRest n type l) (methodRest n type (M.location l)) :=
  corresponds_identifier.bind fun _ => (corresponds_expect .lparen).bind fun _ =>
    (corresponds_formals n).bind fun _ => (corresponds_expect .rparen).bind fun _ =>
    (corresponds_expect .lbrace).bind fun _ => (corresponds_body .rbrace n).bind fun _ =>
    corresponds_return rfl

theorem corresponds_methods (n : Nat) :
    M.Corresponds (List.map M.method) (methods n) (methods n) := by
  induction n with
  | zero => exact corresponds_exhausted
  | succ n ih =>
    refine corresponds_peek.bind fun t => ?_
    simp only [Relocation.kind_token, Relocation.location_token]
    cases t.kind with
    | kwFun =>
      exact corresponds_next.bind fun _ => (corresponds_varType n).bind fun ty =>
        (corresponds_methodRest n (some ty) t.location).bind fun m => ih.bind fun ms =>
        corresponds_pure (m :: ms)
    | kwProc =>
      exact corresponds_next.bind fun _ => (corresponds_methodRest n none t.location).bind fun m =>
        ih.bind fun ms => corresponds_pure (m :: ms)
    | _ => exact corresponds_pure []

/-- Whatever kind of source it is read from, a program is read in the same way. -/
theorem corresponds_programWithin (n : Nat) :
    M.Corresponds M.program (programWithin n) (programWithin n) :=
  (corresponds_expect .kwBegin).bind fun _ => (corresponds_body .kwEnd n).bind fun _ =>
    (corresponds_methods n).bind fun _ => (corresponds_sees .eof).bind fun _ =>
    .ite (corresponds_return rfl) (corresponds_unexpected _)

end Parser

end Lpl
