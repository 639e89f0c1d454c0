import Lpl.Proofs.Printing.WellFormed

/-!
# Writing trees as text

A tree is written as words, with one space between two of them. A word is a keyword or symbol, a name, or
a literal with its sign. Every operand of an operator stands in parentheses, so no text depends on what
binds tighter.

The scanner reads the words back (`reads_text`): each is followed by a space or by the end of the text,
and no lexeme goes on over a space. `Word.Spelled` says which tokens are read for a word. A literal below
zero is two tokens, so its sign may be set apart or not; `spaced` says which, and makes no difference.
-/

namespace Lpl

open Grammar (Phrase Many SignedInt)
open Token (Kind)

namespace Printing

/-! ## Words -/

/-- What a printed text is made of. -/
inductive Word where
  /-- A keyword or a symbol. -/
  | mark (k : Kind)
  | name (x : String)
  | literal (v : Int32)
deriving DecidableEq, Repr

/-- The word as text. If `spaced`, then a space sets the sign of a literal apart. -/
def Word.text (spaced : Bool) : Word → String
  | mark k => k.spelling?.getD ""
  | name x => x
  | literal v => if spaced ∧ v < 0 then "- " ++ toString (-v.toInt) else toString v.toInt

/-- The words with a space between two of them. -/
def text (spaced : Bool) (ws : List Word) : String :=
  " ".intercalate (ws.map (Word.text spaced))

def parens (ws : List Word) : List Word := .mark .lparen :: ws ++ [.mark .rparen]

def brackets (wss : List (List Word)) : List Word :=
  wss.flatMap fun ws => .mark .lbracket :: ws ++ [.mark .rbracket]

def commas (wss : List (List Word)) : List Word := [.mark .comma].intercalate wss

theorem commas_cons_cons {ws ws' : List Word} {wss : List (List Word)} :
    commas (ws :: ws' :: wss) = ws ++ .mark .comma :: commas (ws' :: wss) := by
  simp [commas, List.intercalate_cons_cons]

end Printing

open Printing

/-! ## Expressions -/

/-- The symbol of an operator. -/
def UnaryOp.kind : UnaryOp → Kind
  | .neg => .minus
  | .not => .bang

/-- The symbol of an operator. -/
def BinaryOp.kind : BinaryOp → Kind
  | .add => .plus
  | .sub => .minus
  | .mul => .star
  | .div => .slash
  | .less => .less
  | .lessEq => .lessEq
  | .equal => .equalTo
  | .and => .andAnd
  | .or => .orOr

mutual

/-- The words of an expression. -/
def Expr.words : Expr → List Word
  | .int v _ => [.literal v]
  | .null _ => [.mark .kwNull]
  | .var x _ => [.name x]
  | .unary op e _ => .mark op.kind :: parens e.words
  | .binary op a b _ => parens a.words ++ .mark op.kind :: parens b.words
  | .index x es _ => .name x :: brackets (Expr.wordsAll es)
  | .length a _ => a.words ++ [.mark .dot, .mark .kwLength]
  | .new es n _ =>
    .mark .kwNew :: .mark .kwInt :: brackets (Expr.wordsAll es) ++ brackets (List.replicate n [])
  | .call f es _ => .name f :: parens (commas (Expr.wordsAll es))

/-- The words of each of the expressions. -/
def Expr.wordsAll : List Expr → List (List Word)
  | [] => []
  | e :: es => e.words :: Expr.wordsAll es

end

@[simp] theorem Expr.wordsAll_eq_map (es : List Expr) : Expr.wordsAll es = es.map Expr.words := by
  induction es with
  | nil => rfl
  | cons e es ih => rw [Expr.wordsAll, ih, List.map_cons]

/-! ## Statements -/

/-- The keyword that prints. -/
def PrintKind.keyword : PrintKind → Kind
  | .number => .kwPrint
  | .line => .kwPrintln
  | .character => .kwPrintch

mutual

/-- The words of a statement. -/
def Stmt.words : Stmt → List Word
  | .assign x e _ => .name x :: .mark .assign :: e.words ++ [.mark .semicolon]
  | .assignAt x es e _ =>
    .name x :: brackets (es.map Expr.words) ++ .mark .assign :: e.words ++ [.mark .semicolon]
  | .ifThen c s _ => .mark .kwIf :: parens c.words ++ s.words
  | .ifElse c s t _ => .mark .kwIf :: parens c.words ++ s.words ++ .mark .kwElse :: t.words
  | .whileDo c s _ => .mark .kwWhile :: parens c.words ++ s.words
  | .switch e cs d _ =>
    .mark .kwSwitch :: parens e.words ++ .mark .lbrace :: SwitchCase.wordsAll cs ++
      .mark .kwDefault :: .mark .colon :: d.words ++ [.mark .rbrace]
  | .block ss _ => .mark .lbrace :: Stmt.wordsAll ss ++ [.mark .rbrace]
  | .print k e _ => .mark k.keyword :: e.words ++ [.mark .semicolon]
  | .newline _ => [.mark .kwNewline, .mark .semicolon]
  | .ret none _ => [.mark .kwReturn, .mark .semicolon]
  | .ret (some e) _ => .mark .kwReturn :: e.words ++ [.mark .semicolon]
  | .call f es _ => .name f :: parens (commas (es.map Expr.words)) ++ [.mark .semicolon]

/-- The words of statements in a row. -/
def Stmt.wordsAll : List Stmt → List Word
  | [] => []
  | s :: ss => s.words ++ Stmt.wordsAll ss

/-- The words of the cases of a switch. -/
def SwitchCase.wordsAll : List SwitchCase → List Word
  | [] => []
  | .mk v s _ :: cs =>
    .mark .kwCase :: .literal v :: .mark .colon :: s.words ++ SwitchCase.wordsAll cs

end

/-! ## Programs -/

/-- The words of a type. -/
def VarType.words (ty : VarType) : List Word :=
  .mark .kwInt :: brackets (List.replicate ty.dimensions [])

/-- The words of a parameter. -/
def Decl.words (d : Decl) : List Word := d.type.words ++ [.name d.name]

/-- The words of declarations and statements. -/
def bodyWords (ds : List Decl) (ss : List Stmt) : List Word :=
  ds.flatMap (fun d => d.words ++ [.mark .semicolon]) ++ Stmt.wordsAll ss

/-- The words of a method. -/
def Method.words (m : Method) : List Word :=
  (match m.returnType with
    | some ty => .mark .kwFun :: ty.words
    | none => [.mark .kwProc]) ++
  .name m.name :: parens (commas (m.params.map Decl.words)) ++
  .mark .lbrace :: bodyWords m.locals m.body ++ [.mark .rbrace]

/-- The words of a program. -/
def Program.words (p : Program) : List Word :=
  .mark .kwBegin :: bodyWords p.globals p.body ++ .mark .kwEnd :: p.methods.flatMap Method.words

/-- The program as text. -/
def Program.text (spaced : Bool) (p : Program) : String := Printing.text spaced p.words

namespace Printing

open Lexing

/-! ## Lexemes and spaces -/

variable {w v rest : List Char} {k : Kind}

/-- The end of the text, or a space. -/
def Detached (rest : List Char) : Prop := ∀ c ∈ rest.head?, c = ' '

theorem symbols_not_blank : ∀ k ∈ Kind.symbols, ∀ s ∈ k.spelling?,
    s.toList.all fun c => !isBlank c := by
  decide

/-- No symbol goes on behind a `/` or a `-`. -/
theorem symbols_alone : ∀ k ∈ Kind.symbols, ∀ s ∈ k.spelling?,
    s.toList.head? = some '/' ∨ s.toList.head? = some '-' → s.toList.tail = [] := by
  decide

theorem not_isBlank_of_isWordChar {c : Char} (h : isWordChar c) : ¬ isBlank c := by
  simp only [isBlank, Bool.or_eq_true, decide_eq_true_eq]
  rintro (((rfl | rfl) | rfl) | rfl) <;> exact absurd h (by decide)

theorem isWordChar_of_isDigit {c : Char} (h : c.isDigit) : isWordChar c := by
  simp [isWordChar, Char.isAlphanum, h]

theorem HasKind.not_isBlank (h : HasKind w k) : ∀ c ∈ w, ¬ isBlank c := by
  intro c hc
  cases h with
  | number hw => exact not_isBlank_of_isWordChar (isWordChar_of_isDigit (hw.2 c hc))
  | keyword hk hspelling =>
    have hword : IsWord w := by simpa using keywords_are_words k hk _ hspelling
    exact not_isBlank_of_isWordChar (hword.2 c hc)
  | ident hword _ => exact not_isBlank_of_isWordChar (hword.2 c hc)
  | symbol hk hspelling =>
    have hall := List.all_eq_true.1 (symbols_not_blank k hk _ hspelling) c (by simpa using hc)
    simpa using hall

theorem HasKind.alone {c : Char} (h : HasKind (c :: w) k) (hc : c = '/' ∨ c = '-') : w = [] := by
  have hclass : ¬ c.isDigit ∧ ¬ c.isAlpha := by
    rcases hc with rfl | rfl <;> decide
  rcases hasKind_cons h with ⟨hdigit, -⟩ | ⟨halpha, -⟩ | ⟨-, -, hk, hspelling⟩
  · exact absurd hdigit hclass.1
  · exact absurd halpha hclass.2
  · simpa using symbols_alone k hk _ hspelling (by simpa using hc)

theorem stops_append (h : HasKind w k) (hrest : w ≠ ['/'] ∨ Detached rest) : Stops (w ++ rest) := by
  cases w with
  | nil => exact absurd rfl h.ne_nil
  | cons c w =>
    have hopens : ∀ d, d ≠ ' ' → ¬ ['/', d] <+: c :: w ++ rest := by
      intro d hd hprefix
      obtain ⟨rfl, ds, hds⟩ := List.cons_prefix_cons.1 hprefix
      obtain rfl := HasKind.alone h (.inl rfl)
      exact hd (hrest.resolve_left (by simp) d (congrArg List.head? hds).symm)
    refine ⟨?_, hopens '/' (by decide), hopens '*' (by decide)⟩
    intro d hd
    obtain rfl : c = d := by simpa using hd
    exact HasKind.not_isBlank h c List.mem_cons_self

/-- In front of a space or the end of the text a lexeme is the longest one. -/
theorem isLexeme_of_detached (h : HasKind w k) (hrest : Detached rest)
    (hbounded : IsNumber w → Numeral.decimal w ≤ 2147483648) : IsLexeme w rest k := by
  refine ⟨h, fun w' rest' k' heq hw' => ?_, hbounded⟩
  obtain ⟨as, hw, -⟩ | ⟨bs, hw, hbs⟩ := List.append_eq_append_iff.1 heq
  · simp [hw]
  · cases bs with
    | nil => simp [hw]
    | cons c bs =>
      obtain rfl : c = ' ' := hrest c (by simp [hbs])
      exact absurd (by decide) (HasKind.not_isBlank hw' ' ' (by simp [hw]))

theorem isLexeme_minus : IsLexeme ['-'] rest .minus := by
  refine ⟨.symbol (by decide) rfl, fun w' rest' k' heq hw' => ?_, fun h => absurd h (by decide)⟩
  cases w' with
  | nil => simp
  | cons c w' =>
    obtain rfl : c = '-' := (List.cons.inj heq).1
    simp [HasKind.alone hw' (.inr rfl)]

/-! ## Reading words back -/

/-- The tokens that a word is read as. -/
inductive Word.Spelled : Phrase Word
  | mark {t} : Spelled [t] (.mark t.kind)
  | name {t} : t.kind = .ident → Spelled [t] (.name t.lexeme)
  | literal {us v} : SignedInt us v → Spelled us (.literal v)

/-- Words that can be read back. -/
def Word.Legible : Word → Prop
  | mark k => k.spelling?.isSome
  | name x => IsName x
  | literal _ => True

/-- The text is read as tokens that have the property `P`, wherever it stands. -/
def Reads (text : List Char) (P : List Token → Prop) : Prop :=
  ∀ before, ∃ ts l, Split before text (ts ++ [.endOfFile l]) ∧ P ts

theorem Reads.cons {g : List Char} {P : List Token → Prop} (hg : Trivial (w ++ rest) g)
    (hw : IsLexeme w rest k) (hstops : Stops (w ++ rest))
    (hrest : Reads rest fun ts => ∀ t : Token, t.kind = k → t.lexeme = String.ofList w → P (t :: ts)) :
    Reads (g ++ (w ++ rest)) P := by
  intro before
  obtain ⟨ts, l, hsplit, hts⟩ := hrest (before ++ g ++ w)
  let t : Token := ⟨k, String.ofList w, position (before ++ g)⟩
  exact ⟨t :: ts, l, .cons (isGap_iff.2 ⟨hg, hstops⟩) hw rfl rfl hsplit, hts t rfl rfl⟩

theorem Reads.mono {text : List Char} {P Q : List Token → Prop} (h : Reads text P)
    (hPQ : ∀ ts, P ts → Q ts) : Reads text Q := by
  intro before
  obtain ⟨ts, l, hsplit, hts⟩ := h before
  exact ⟨ts, l, hsplit, hPQ ts hts⟩

/-! ### Literals -/

theorem isNumber_toDigits (n : Nat) : IsNumber (Nat.toDigits 10 n) :=
  ⟨Nat.toDigits_ne_nil, fun _ hc => Nat.isDigit_of_mem_toDigits (by decide) (by decide) hc⟩

theorem decimal_toDigits (n : Nat) : Numeral.decimal (Nat.toDigits 10 n) = n :=
  Nat.ofDigitChars_toDigits (by decide) (by decide)

theorem magnitude?_toDigits (n : Nat) : Numeral.magnitude? (Nat.toDigits 10 n) = some n := by
  have hnumber := isNumber_toDigits n
  rw [Numeral.magnitude?, if_pos ⟨hnumber.1, List.all_eq_true.2 hnumber.2⟩, decimal_toDigits]

theorem signedInt_of_literal {us : List Token} {v : Int32} (h : Grammar.Literal us v.toInt) :
    SignedInt us v := by
  have hwithin : Numeral.Within Numeral.half32 v.toInt := ⟨v.le_toInt, v.toInt_lt⟩
  simpa using SignedInt.mk h hwithin

/-- Digits that may be a literal, or what follows the sign of one. -/
theorem reads_digits {g : List Char} {n : Nat} {P : List Token → Prop} (hn : n ≤ 2147483648)
    (hg : Trivial (Nat.toDigits 10 n ++ rest) g) (hrest : Detached rest)
    (h : Reads rest fun ts => ∀ t : Token, t.kind = .intLiteral →
      Numeral.magnitude? t.lexeme.toList = some n → P (t :: ts)) :
    Reads (g ++ (Nat.toDigits 10 n ++ rest)) P := by
  have hnumber := isNumber_toDigits n
  have hkind : HasKind (Nat.toDigits 10 n) .intLiteral := .number hnumber
  have hlexeme := isLexeme_of_detached hkind hrest fun _ => by rwa [decimal_toDigits]
  refine Reads.cons hg hlexeme (stops_append hkind (.inr hrest)) (h.mono fun ts hts t ht hdigits => ?_)
  refine hts t ht ?_
  rw [hdigits, String.toList_ofList, magnitude?_toDigits]

/-- The text of a literal: digits, and in front of them perhaps a sign. -/
theorem toList_literal (spaced : Bool) (v : Int32) :
    ((Word.literal v).text spaced).toList =
      if 0 ≤ v.toInt then Nat.toDigits 10 v.toInt.toNat
      else ['-'] ++ ((if spaced then [' '] else []) ++ Nat.toDigits 10 (-v.toInt).toNat) := by
  have hneg : v < 0 ↔ ¬ 0 ≤ v.toInt := by
    rw [Int32.lt_iff_toInt_lt, Int32.toInt_zero]
    omega
  simp only [Word.text, hneg, Int.toString_eq_repr, Int.repr_eq_if]
  by_cases hsign : 0 ≤ v.toInt
  · simp [hsign]
  · have hdigits : v.toInt ≤ 0 := by omega
    cases spaced <;> simp [hsign, hdigits]

theorem reads_literal (spaced : Bool) {v : Int32} {g : List Char} {ws : List Word}
    (hg : ∀ cs, Trivial cs g) (hrest : Detached rest) (h : Reads rest (Many Word.Spelled · ws)) :
    Reads (g ++ (((Word.literal v).text spaced).toList ++ rest))
      (Many Word.Spelled · (.literal v :: ws)) := by
  have hlow := v.le_toInt
  have hhigh := v.toInt_lt
  rw [toList_literal]
  split
  · next hpos =>
    refine reads_digits (by omega) (hg _) hrest (h.mono fun ts hts t ht hmagnitude => ?_)
    have hliteral := Grammar.Literal.plain ht hmagnitude
    rw [Int.toNat_of_nonneg hpos] at hliteral
    exact .cons (.literal (signedInt_of_literal hliteral)) hts
  · next hneg =>
    have hgap : ∀ cs, Trivial cs (if spaced then [' '] else []) := by
      intro cs
      cases spaced with
      | false => exact .nil
      | true => exact .blank (by decide) .nil
    rw [List.append_assoc, List.append_assoc]
    have hminus : HasKind ['-'] .minus := .symbol (by decide) rfl
    refine Reads.cons (hg _) isLexeme_minus (stops_append hminus (.inl (by decide))) ?_
    refine reads_digits (by omega) (hgap _) hrest ?_
    refine h.mono fun ts hts t ht hmagnitude m hm _ => ?_
    have hliteral := Grammar.Literal.negative hm ht hmagnitude
    rw [Int.toNat_of_nonneg (by omega), Int.neg_neg] at hliteral
    exact .cons (.literal (signedInt_of_literal hliteral)) hts

/-! ### Texts -/

theorem spelling?_isSome {k : Kind} (h : k.spelling?.isSome) : k ∈ Kind.keywords ∨ k ∈ Kind.symbols := by
  cases k <;> first | decide | exact absurd h (by decide)

theorem reads_lexeme {g : List Char} {P : List Token → Prop} (hw : HasKind w k)
    (hk : k ≠ .intLiteral) (hg : Trivial (w ++ rest) g) (hrest : Detached rest)
    (h : Reads rest fun ts => ∀ t : Token, t.kind = k → t.lexeme = String.ofList w → P (t :: ts)) :
    Reads (g ++ (w ++ rest)) P := by
  have hlexeme := isLexeme_of_detached hw hrest fun hnumber =>
    absurd (hw.unique (.number hnumber)) hk
  exact Reads.cons hg hlexeme (stops_append hw (.inr hrest)) h

theorem reads_word (spaced : Bool) {w : Word} {g : List Char} {ws : List Word} (hw : w.Legible)
    (hg : ∀ cs, Trivial cs g) (hrest : Detached rest) (h : Reads rest (Many Word.Spelled · ws)) :
    Reads (g ++ ((w.text spaced).toList ++ rest)) (Many Word.Spelled · (w :: ws)) := by
  cases w with
  | mark k =>
    obtain ⟨s, hs⟩ := Option.isSome_iff_exists.1 hw
    have hkind : HasKind s.toList k := by
      rcases spelling?_isSome hw with hk | hk
      · exact .keyword hk (by simpa using hs)
      · exact .symbol hk (by simpa using hs)
    have hne : k ≠ .intLiteral := by
      rintro rfl
      cases hs
    have htext : (Word.mark k).text spaced = s := by simp [Word.text, hs]
    rw [htext]
    refine reads_lexeme hkind hne (hg _) hrest (h.mono fun ts hts t ht _ => ?_)
    subst ht
    exact .cons .mark hts
  | name x =>
    have hkind : HasKind x.toList .ident := .ident hw.word (by simpa using hw.not_keyword)
    refine reads_lexeme hkind (by decide) (hg _) hrest (h.mono fun ts hts t ht hx => ?_)
    obtain rfl : t.lexeme = x := by simpa [Word.text] using hx
    exact .cons (.name ht) hts
  | literal v => exact reads_literal spaced hg hrest h

theorem toList_text_cons (spaced : Bool) (w : Word) (ws : List Word) :
    (text spaced (w :: ws)).toList =
      (w.text spaced).toList ++ ws.flatMap fun w => ' ' :: (w.text spaced).toList := by
  induction ws generalizing w with
  | nil => simp [text]
  | cons w' ws ih =>
    have hcons : text spaced (w :: w' :: ws) = w.text spaced ++ " " ++ text spaced (w' :: ws) :=
      String.intercalate_cons_cons
    simp [hcons, ih]

theorem detached_spaced (spaced : Bool) (ws : List Word) :
    Detached (ws.flatMap fun w => ' ' :: (w.text spaced).toList) := by
  cases ws <;> simp [Detached]

theorem reads_spaced (spaced : Bool) {ws : List Word} (hws : ∀ w ∈ ws, w.Legible) :
    Reads (ws.flatMap fun w => ' ' :: (w.text spaced).toList) (Many Word.Spelled · ws) := by
  induction ws with
  | nil =>
    intro before
    exact ⟨[], _, .last (isGap_iff.2 ⟨.nil, by simp [Stops]⟩), .nil⟩
  | cons w ws ih =>
    simp only [List.mem_cons, forall_eq_or_imp] at hws
    have hgap : ∀ cs, Trivial cs [' '] := fun _ => .blank (by decide) .nil
    exact reads_word spaced hws.1 hgap (detached_spaced spaced ws) (ih hws.2)

/-- The text of words is read as those words. -/
theorem reads_text (spaced : Bool) {ws : List Word} (hws : ∀ w ∈ ws, w.Legible) :
    Reads (text spaced ws).toList (Many Word.Spelled · ws) := by
  cases ws with
  | nil => exact reads_spaced spaced hws
  | cons w ws =>
    simp only [List.mem_cons, forall_eq_or_imp] at hws
    rw [toList_text_cons]
    have hgap : ∀ cs, Trivial cs [] := fun _ => .nil
    exact reads_word spaced hws.1 hgap (detached_spaced spaced ws) (reads_spaced spaced hws.2)

end Printing

end Lpl
