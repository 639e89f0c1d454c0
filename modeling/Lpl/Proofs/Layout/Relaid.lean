import Lpl.Proofs.Printing.Words

/-!
# Texts that differ in their gaps

`Relaid Leading text text'`: the texts have the same lexemes, with other gaps between them. In front of
the first lexeme there may be any blanks and comments. Behind a lexeme a gap stays as it is, or becomes
one that starts with a blank, so that no lexeme runs into a comment or into the next lexeme.

**Theorem (`Relaid.split`).** Such texts fall into the same tokens, but for the locations.

A lexeme is the longest one at its place because of the character behind it. This character is the same
in both texts, or it is a blank in the second one, and a blank goes on no lexeme.
-/

namespace Lpl

/-- The token without its location. -/
def Token.unlocated (t : Token) : Token := { t with location := .start }

namespace Lexing

open Token

/-! ## Other gaps -/

/-- Blanks and comments that are over before anything that stands behind them: line comments have their
newlines, and block comments their ends. -/
def Terminated (g : List Char) : Prop := ∀ rest, Trivial rest g

/-- A gap in front of all lexemes may become any other. -/
def Leading (g g' : List Char) : Prop := g' = g ∨ Terminated g'

/-- A gap behind a lexeme may become any other that starts with a blank. -/
def Behind (g g' : List Char) : Prop := g' = g ∨ (∃ c ∈ g'.head?, isBlank c) ∧ Terminated g'

/-- The lexemes of the first text with other gaps, the first gap changed as `R` says. -/
inductive Relaid : (R : List Char → List Char → Prop) → (text text' : List Char) → Prop
  | last {R : List Char → List Char → Prop} {g g' : List Char} : IsGap g [] → R g g' → Relaid R g g'
  | cons {R : List Char → List Char → Prop} {g g' w rest rest' : List Char} {k : Kind} :
      IsGap g (w ++ rest) → IsLexeme w rest k → R g g' → Relaid Behind rest rest' →
      Relaid R (g ++ (w ++ rest)) (g' ++ (w ++ rest'))

/-! ## The character behind a lexeme -/

/-- Behind a lexeme stands the same character, or now a blank. -/
def Behaved (rest rest' : List Char) : Prop :=
  rest'.head? = rest.head? ∨ ∃ c ∈ rest'.head?, isBlank c

theorem Relaid.behaved {rest rest' : List Char} (h : Relaid Behind rest rest') :
    Behaved rest rest' := by
  cases h with
  | last _ hg => exact hg.imp (congrArg List.head?) And.left
  | cons _ hw hg _ =>
    obtain ⟨c, w, rfl⟩ := List.exists_cons_of_ne_nil hw.kind.ne_nil
    rcases hg with rfl | ⟨⟨d, hd, hblank⟩, -⟩
    · exact .inl (by simp)
    · exact .inr ⟨d, by simp [Option.mem_def.1 hd], hblank⟩

theorem symbols_short : ∀ k ∈ Kind.symbols, ∀ s ∈ k.spelling?, s.toList.length ≤ 2 := by
  decide

/-- If a lexeme goes on, it goes on by one character. -/
theorem HasKind.next {w v : List Char} {c : Char} {k k' : Kind} (h : HasKind w k)
    (h' : HasKind (w ++ c :: v) k') : ∃ k'', HasKind (w ++ [c]) k'' := by
  obtain ⟨d, w, rfl⟩ := List.exists_cons_of_ne_nil h.ne_nil
  have hsub : ∀ e ∈ d :: w ++ [c], e ∈ d :: w ++ c :: v := by simp +contextual [or_imp]
  rcases hasKind_cons h' with ⟨-, hnumber, -⟩ | ⟨-, hword, -⟩ | ⟨-, -, hk, hspelling⟩
  · exact ⟨_, .number ⟨by simp, fun e he => hnumber.2 e (hsub e he)⟩⟩
  · exact ⟨_, hasKind_ofWord ⟨hword.1, fun e he => hword.2 e (hsub e he)⟩⟩
  · have hlength := symbols_short k' hk _ hspelling
    rw [String.toList_ofList] at hlength
    obtain rfl : v = [] := List.length_eq_zero_iff.1 (by simp at hlength; omega)
    exact ⟨k', h'⟩

theorem IsLexeme.relaid {w rest rest' : List Char} {k : Kind} (h : IsLexeme w rest k)
    (hrest : Behaved rest rest') : IsLexeme w rest' k where
  kind := h.kind
  longest w' rest'' k' heq hw' := by
    refine Nat.not_lt.1 fun hlong => ?_
    -- A longer lexeme goes on with the character behind `w`.
    rcases List.append_eq_append_iff.1 heq with ⟨u, rfl, -⟩ | ⟨u, rfl, rfl⟩
    · rw [List.length_append] at hlong
      omega
    obtain ⟨c, v, rfl⟩ := List.exists_cons_of_ne_nil (l := u) (by rintro rfl; simp at hlong)
    obtain ⟨k'', hnext⟩ := h.kind.next hw'
    have hc : (c :: v ++ rest'').head? = some c := rfl
    rcases hrest with hsame | ⟨d, hd, hblank⟩
    · obtain ⟨tail, rfl⟩ := List.head?_eq_some_iff.1 (hsame.symm.trans hc)
      have hle := h.longest (w ++ [c]) tail k'' (by simp) hnext
      rw [List.length_append, List.length_singleton] at hle
      omega
    · obtain rfl : c = d := Option.some.inj (hc.symm.trans hd)
      exact Printing.HasKind.not_isBlank hw' c (by simp) hblank
  bounded := h.bounded

theorem pair_prefix_iff {c d e : Char} {rest : List Char} :
    [c, d] <+: e :: rest ↔ c = e ∧ rest.head? = some d := by
  cases rest <;> simp [List.cons_prefix_cons, eq_comm]

instance (rest : List Char) : Decidable (Stops rest) :=
  inferInstanceAs (Decidable ((∀ c ∈ rest.head?, ¬ isBlank c) ∧ ¬ _ <+: rest ∧ ¬ _ <+: rest))

theorem Stops.relaid {w rest rest' : List Char} (h : Stops (w ++ rest)) (hw : w ≠ [])
    (hrest : Behaved rest rest') : Stops (w ++ rest') := by
  obtain ⟨c, w, rfl⟩ := List.exists_cons_of_ne_nil hw
  obtain ⟨hblank, hline, hblock⟩ := h
  -- What stands behind the first character of `w` is the same as before, or a blank.
  have hsecond : ∀ d, ¬ isBlank d → (w ++ rest').head? = some d → (w ++ rest).head? = some d := by
    intro d hd hhead
    cases w with
    | cons _ _ => exact hhead
    | nil =>
      rcases hrest with hsame | ⟨e, he, heblank⟩
      · exact hsame.symm.trans hhead
      · exact absurd (Option.some.inj (he.symm.trans hhead) ▸ heblank) hd
  simp only [Stops, List.cons_append, pair_prefix_iff] at hline hblock ⊢
  refine ⟨hblank, ?_, ?_⟩
  · rintro ⟨hc, hhead⟩
    exact hline ⟨hc, hsecond '/' (by decide) hhead⟩
  · rintro ⟨hc, hhead⟩
    exact hblock ⟨hc, hsecond '*' (by decide) hhead⟩

theorem Trivial.relaid {g w rest rest' : List Char} (h : Trivial (w ++ rest) g) (hw : w ≠ []) :
    Trivial (w ++ rest') g := by
  induction h with
  | nil => exact .nil
  | blank hc _ ih => exact .blank hc ih
  | line hbody _ ih => exact .line hbody ih
  | lineAtEnd _ hend => exact absurd (List.append_eq_nil_iff.1 hend).1 hw
  | block hbody _ ih => exact .block hbody ih

/-- The first gap of a relaid text is a gap in front of a lexeme that stays. -/
theorem IsGap.relaid {R : List Char → List Char → Prop} {g g' w rest rest' : List Char}
    (hR : ∀ g g', R g g' → g' = g ∨ Terminated g') (h : IsGap g (w ++ rest)) (hw : w ≠ [])
    (hg : R g g') (hrest : Behaved rest rest') : IsGap g' (w ++ rest') := by
  refine isGap_iff.2 ⟨?_, h.stops.relaid hw hrest⟩
  rcases hR g g' hg with rfl | hg'
  · exact h.trivial.relaid hw
  · exact hg' _

theorem Relaid.split {R : List Char → List Char → Prop} {text text' : List Char}
    (hR : ∀ g g', R g g' → g' = g ∨ Terminated g') (h : Relaid R text text')
    (before before' : List Char) :
    ∃ ts ts', Split before text ts ∧ Split before' text' ts' ∧
      ts'.map unlocated = ts.map unlocated := by
  induction h generalizing before before' with
  | @last R g g' hgap hg =>
    have hgap' : IsGap g' [] := by
      rcases hR g g' hg with rfl | hg'
      · exact hgap
      · exact isGap_iff.2 ⟨hg' _, by simp [Stops]⟩
    exact ⟨_, _, .last hgap, .last hgap', rfl⟩
  | @cons R g g' w rest rest' k hgap hw hg hrest ih =>
    have hgap' := hgap.relaid hR hw.kind.ne_nil hg hrest.behaved
    have hbehind : ∀ g g', Behind g g' → g' = g ∨ Terminated g' := fun _ _ h => h.imp id And.right
    obtain ⟨ts, ts', hts, hts', heq⟩ := ih hbehind (before ++ g ++ w) (before' ++ g' ++ w)
    exact ⟨⟨k, String.ofList w, _⟩ :: ts, ⟨k, String.ofList w, _⟩ :: ts', .cons hgap hw rfl rfl hts,
      .cons hgap' (hw.relaid hrest.behaved) rfl rfl hts', by simp [heq, unlocated]⟩

/-- Texts that differ in their gaps fall into the same tokens, but for the locations. -/
theorem Relaid.tokenize {source source' : String} (h : Relaid Leading source.toList source'.toList) :
    ∃ ts ts', tokenize source = .ok ts ∧ tokenize source' = .ok ts' ∧
      ts'.map unlocated = ts.map unlocated := by
  obtain ⟨ts, ts', hts, hts', heq⟩ := h.split (fun _ _ => id) [] []
  exact ⟨ts, ts', tokenize_eq_ok_iff_split.2 hts, tokenize_eq_ok_iff_split.2 hts', heq⟩

/-- A lexeme as the scanner reads it, which is no slash. -/
theorem Relaid.cons_of_lexeme {R : List Char → List Char → Prop} {c : Char}
    {g g' w rest rest' : List Char} {k : Kind} (hg : Trivial (c :: w ++ rest) g)
    (hc : ¬ isBlank c) (hslash : c ≠ '/') (hw : lexeme c (w ++ rest) = (.ok k, c :: w)) (hR : R g g')
    (hrest : Relaid Behind rest rest') : Relaid R (g ++ (c :: w ++ rest)) (g' ++ (c :: w ++ rest')) := by
  have hstops : Stops (c :: w ++ rest) := by simp [Stops, hc, Ne.symm hslash]
  obtain ⟨tail, heq, hlexeme⟩ := lexeme_eq_ok_iff.1 hw
  obtain rfl : rest = tail := by simpa using heq
  exact .cons (isGap_iff.2 ⟨hg, hstops⟩) hlexeme hR hrest

/-- A text with no more blanks than it needs. -/
def tight : String := "BEGIN RETURN;END"

/-- The same text with comments and more blanks. -/
def loose : String := "/*\n*/BEGIN\n// ;\nRETURN; END "

theorem relaid_loose : Relaid Leading tight.toList loose.toList := by
  have hnone : Behind [] [] := .inl rfl
  have hblank : Behind [] [' '] := .inr ⟨⟨' ', rfl, rfl⟩, fun _ => .blank rfl .nil⟩
  have hline : Behind [' '] ['\n', '/', '/', ' ', ';', '\n'] :=
    .inr ⟨⟨'\n', rfl, rfl⟩, fun _ => .blank rfl (@Trivial.line _ [' ', ';'] _ (by decide) .nil)⟩
  have hblock : Leading [] ['/', '*', '\n', '*', '/'] :=
    .inr fun _ => @Trivial.block _ ['\n'] _ (by decide) .nil
  have hlast : Relaid Behind [] [' '] := .last (isGap_iff.2 ⟨.nil, by simp [Stops]⟩) hblank
  have hend := Relaid.cons_of_lexeme (c := 'E') (w := ['N', 'D']) .nil (by decide) (by decide) rfl
    hblank hlast
  have hsemicolon := Relaid.cons_of_lexeme (c := ';') (w := []) .nil (by decide) (by decide) rfl hnone
    hend
  have hreturn := Relaid.cons_of_lexeme (c := 'R') (w := ['E', 'T', 'U', 'R', 'N']) (.blank rfl .nil)
    (by decide) (by decide) rfl hline hsemicolon
  exact .cons_of_lexeme (c := 'B') (w := ['E', 'G', 'I', 'N']) .nil (by decide) (by decide) rfl hblock
    hreturn

end Lexing

end Lpl
