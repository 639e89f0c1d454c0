import Lpl.Proofs.Lexing.Gap

/-!
# Tokens are the longest lexemes

**Theorem (`tokenize_eq_ok_iff`).** The scanner accepts exactly the texts that split into gaps and
lexemes, and gives the tokens of the split. Put together again, gaps and lexemes are the text.

The first character of a lexeme decides between number, word and symbol (`hasKind_cons`), so a lexeme
that is read as far as its class allows is the longest one. Symbols of two characters come before those
of one, so the first symbol that fits is the longest.
-/

namespace Lpl.Lexing

open Token (Kind)

/-! ## Lexemes and their first characters -/

theorem not_isAlpha_of_isDigit {c : Char} (h : c.isDigit) : ¬ c.isAlpha := by
  have hdigit : c.toNat ≤ 57 := (Char.isDigit_iff_toNat.1 h).2
  have halpha : c.isAlpha = (decide ('A'.val ≤ c.val ∧ c.val ≤ 'Z'.val) ||
      (decide ('a'.val ≤ c.val) && decide (c.val ≤ 'z'.val))) := rfl
  simp [halpha, UInt32.le_iff_toNat_le]
  omega

theorem isWordChar_of_isAlpha {c : Char} (h : c.isAlpha) : isWordChar c := by
  simp [isWordChar, Char.isAlphanum, h]

theorem keywords_are_words : ∀ k ∈ Kind.keywords, ∀ s ∈ k.spelling?, IsWord s.toList := by
  decide

theorem ofWord_spelling : ∀ k ∈ Kind.keywords, ∀ s ∈ k.spelling?, Kind.ofWord s = k := by
  decide

theorem symbols_are_marks : ∀ k ∈ Kind.symbols, ∀ s ∈ k.spelling?,
    s.toList.head?.any fun c => !c.isDigit && !c.isAlpha := by
  decide

theorem symbols_by_length : Kind.symbols.Pairwise fun k k' =>
    ∀ s ∈ k.spelling?, ∀ s' ∈ k'.spelling?, s'.toList.length ≤ s.toList.length := by
  decide

theorem symbols_injective : ∀ k ∈ Kind.symbols, ∀ k' ∈ Kind.symbols,
    k.spelling? = k'.spelling? → k = k' := by
  decide

/-- The number, word or symbol that starts with `c`. -/
theorem hasKind_cons {c : Char} {w : List Char} {k : Kind} (h : HasKind (c :: w) k) :
    (c.isDigit ∧ IsNumber (c :: w) ∧ k = .intLiteral) ∨
      (c.isAlpha ∧ IsWord (c :: w) ∧ k = .ofWord (String.ofList (c :: w))) ∨
      (¬ c.isDigit ∧ ¬ c.isAlpha ∧ k ∈ Kind.symbols ∧
        k.spelling? = some (String.ofList (c :: w))) := by
  have hfirst : IsWord (c :: w) → c.isAlpha := by
    rintro ⟨⟨d, hd, halpha⟩, -⟩
    rwa [Option.some.inj hd]
  cases h with
  | number hw => exact .inl ⟨hw.2 c List.mem_cons_self, hw, rfl⟩
  | keyword hk hspelling =>
    have hw : IsWord (c :: w) := by
      simpa using keywords_are_words k hk _ hspelling
    exact .inr (.inl ⟨hfirst hw, hw, (ofWord_spelling k hk _ hspelling).symm⟩)
  | ident hw hkeywords =>
    have hfind : Kind.keywords.find? (fun k => k.spelling? = some (String.ofList (c :: w))) = none := by
      simpa [List.find?_eq_none] using hkeywords
    exact .inr (.inl ⟨hfirst hw, hw, by rw [Kind.ofWord, hfind]; rfl⟩)
  | symbol hk hspelling =>
    have hmark : ¬ c.isDigit ∧ ¬ c.isAlpha := by
      simpa using symbols_are_marks k hk _ hspelling
    exact .inr (.inr ⟨hmark.1, hmark.2, hk, hspelling⟩)

theorem HasKind.ne_nil {w : List Char} {k : Kind} (h : HasKind w k) : w ≠ [] := by
  rintro rfl
  cases h with
  | number hw => exact hw.1 rfl
  | keyword hk hspelling => exact absurd (keywords_are_words k hk _ hspelling) (by decide)
  | ident hw _ => exact absurd hw (by decide)
  | symbol hk hspelling => exact absurd (symbols_are_marks k hk _ hspelling) (by simp)

theorem hasKind_ofWord {w : List Char} (hw : IsWord w) : HasKind w (.ofWord (String.ofList w)) := by
  unfold Kind.ofWord
  cases hfind : Kind.keywords.find? (fun k => k.spelling? = some (String.ofList w)) with
  | none => exact .ident hw (by simpa [List.find?_eq_none] using hfind)
  | some k =>
    exact .keyword (List.mem_of_find?_eq_some hfind) (by simpa using List.find?_some hfind)

/-- A lexeme determines its kind. -/
theorem HasKind.unique {w : List Char} {k k' : Kind} (h : HasKind w k) (h' : HasKind w k') :
    k = k' := by
  cases w with
  | nil => exact absurd rfl h.ne_nil
  | cons c w =>
    rcases hasKind_cons h with ⟨hc, -, rfl⟩ | ⟨hc, -, rfl⟩ | ⟨hdigit, halpha, hk, hspelling⟩ <;>
      rcases hasKind_cons h' with ⟨hc', -, rfl⟩ | ⟨hc', -, rfl⟩ | ⟨hdigit', halpha', hk', hspelling'⟩
    · rfl
    · exact absurd hc' (not_isAlpha_of_isDigit hc)
    · exact absurd hc hdigit'
    · exact absurd hc (not_isAlpha_of_isDigit hc')
    · rfl
    · exact absurd hc halpha'
    · exact absurd hc' hdigit
    · exact absurd hc' halpha
    · exact symbols_injective k hk k' hk' (hspelling.trans hspelling'.symm)

theorem HasKind.ne_eof {w : List Char} {k : Kind} (h : HasKind w k) : k ≠ .eof := by
  cases h with
  | number _ | ident _ _ => decide
  | keyword hk _ =>
    rintro rfl
    exact absurd hk (by decide)
  | symbol hk _ =>
    rintro rfl
    exact absurd hk (by decide)

/-! ## The longest lexeme -/

/-- Two lexemes that are both longest are one. -/
theorem IsLexeme.unique {w w' rest rest' : List Char} {k k' : Kind} (h : IsLexeme w rest k)
    (h' : IsLexeme w' rest' k') (heq : w' ++ rest' = w ++ rest) : w' = w ∧ rest' = rest ∧ k' = k := by
  have hlength : w'.length = w.length :=
    Nat.le_antisymm (h.longest w' rest' k' heq h'.kind) (h'.longest w rest k heq.symm h.kind)
  obtain ⟨rfl, rfl⟩ := List.append_inj heq hlength
  exact ⟨rfl, rfl, h'.kind.unique h.kind⟩

/-- A lexeme that is read as far as the class of its characters goes is the longest one. -/
theorem length_le_of_class {p : Char → Bool} {c : Char} {cs w rest : List Char} {k : Kind}
    (hclass : ∀ v k, HasKind (c :: v) k → ∀ d ∈ v, p d) (heq : w ++ rest = c :: cs)
    (hw : HasKind w k) : w.length ≤ (c :: cs.takeWhile p).length := by
  cases w with
  | nil => exact absurd rfl hw.ne_nil
  | cons d v =>
    rw [List.cons_append, List.cons.injEq] at heq
    obtain ⟨rfl, rfl⟩ := heq
    rw [List.takeWhile_append_of_pos (hclass v k hw)]
    simp

theorem isLexeme_of_class {p : Char → Bool} {c : Char} {cs : List Char} {k : Kind}
    (hkind : HasKind (c :: cs.takeWhile p) k) (hclass : ∀ v k, HasKind (c :: v) k → ∀ d ∈ v, p d)
    (hbounded : IsNumber (c :: cs.takeWhile p) → Numeral.decimal (c :: cs.takeWhile p) ≤ 2147483648) :
    IsLexeme (c :: cs.takeWhile p) (cs.dropWhile p) k where
  kind := hkind
  longest w rest k' heq hw := by
    rw [List.cons_append, List.takeWhile_append_dropWhile] at heq
    exact length_le_of_class hclass heq hw
  bounded := hbounded

theorem symbolAt?_eq_some {cs w : List Char} {k : Kind} (h : symbolAt? cs = some (k, w)) :
    k ∈ Kind.symbols ∧ k.spelling? = some (String.ofList w) ∧ w <+: cs ∧
      ∀ k' ∈ Kind.symbols, ∀ w', k'.spelling? = some (String.ofList w') → w' <+: cs →
        w'.length ≤ w.length := by
  obtain ⟨before, k₁, after, hsymbols, hk₁, hbefore⟩ := List.findSome?_eq_some_iff.1 h
  obtain ⟨s, hs, hfits⟩ := Option.bind_eq_some_iff.1 hk₁
  split at hfits
  · next hprefix =>
    cases hfits
    refine ⟨by simp [hsymbols], by simpa using hs, List.isPrefixOf_iff_prefix.1 hprefix, ?_⟩
    intro k' hk' w' hspelling hw'
    have hsorted := symbols_by_length
    rw [hsymbols] at hk' hsorted
    rw [List.pairwise_append, List.pairwise_cons] at hsorted
    rcases List.mem_append.1 hk' with hk' | hk'
    · -- A symbol before the first one that fits does not fit.
      have hnone := hbefore k' hk'
      simp [hspelling, List.isPrefixOf_iff_prefix, hw'] at hnone
    · rcases List.mem_cons.1 hk' with rfl | hk'
      · obtain rfl := Option.some.inj (hs.symm.trans hspelling)
        simp
      · simpa using hsorted.2.1.1 k' hk' s hs _ hspelling
  · cases hfits

theorem symbolAt?_eq_none {cs : List Char} (h : symbolAt? cs = none) :
    ∀ k ∈ Kind.symbols, ∀ w, k.spelling? = some (String.ofList w) → ¬ w <+: cs := by
  intro k hk w hspelling hw
  have hnone := List.findSome?_eq_none_iff.1 h k hk
  simp [hspelling, List.isPrefixOf_iff_prefix, hw] at hnone

/-- The scanner reads the longest lexeme, or there is none. -/
theorem lexeme_spec (c : Char) (cs : List Char) :
    match lexeme c cs with
    | (.ok k, w) => ∃ rest, c :: cs = w ++ rest ∧ IsLexeme w rest k
    | (.error _, _) => ∀ w rest k, w ++ rest = c :: cs → ¬ IsLexeme w rest k := by
  unfold lexeme
  by_cases hdigit : c.isDigit
  · have hnumber : IsNumber (c :: cs.takeWhile Char.isDigit) := by
      refine ⟨List.cons_ne_nil _ _, ?_⟩
      simp only [List.mem_cons, forall_eq_or_imp]
      exact ⟨hdigit, fun d hd => List.all_eq_true.1 List.all_takeWhile d hd⟩
    have hclass : ∀ v k, HasKind (c :: v) k → ∀ d ∈ v, d.isDigit := by
      intro v k hv d hd
      rcases hasKind_cons hv with ⟨-, hv, -⟩ | ⟨hc, -⟩ | ⟨hc, -⟩
      · exact hv.2 d (List.mem_cons_of_mem _ hd)
      · exact absurd hc (not_isAlpha_of_isDigit hdigit)
      · exact absurd hdigit hc
    rw [if_pos hdigit]
    by_cases hbound : Numeral.decimal (c :: cs.takeWhile Char.isDigit) ≤ maxLiteral
    · rw [if_pos hbound]
      refine ⟨cs.dropWhile Char.isDigit, by simp, ?_⟩
      exact isLexeme_of_class (.number hnumber) hclass fun _ => hbound
    · rw [if_neg hbound]
      intro w rest k heq hw
      -- The longest lexeme would be the number that is out of range.
      have hle := length_le_of_class hclass heq hw.kind
      have hge := hw.longest (c :: cs.takeWhile Char.isDigit) (cs.dropWhile Char.isDigit) .intLiteral
        (by simp [heq]) (.number hnumber)
      have happend : w ++ rest = (c :: cs.takeWhile Char.isDigit) ++ cs.dropWhile Char.isDigit := by
        simp [heq]
      obtain ⟨rfl, -⟩ := List.append_inj happend (Nat.le_antisymm hle hge)
      exact hbound (hw.bounded hnumber)
  · rw [if_neg hdigit]
    by_cases halpha : c.isAlpha
    · have hword : IsWord (c :: cs.takeWhile isWordChar) := by
        refine ⟨⟨c, rfl, halpha⟩, ?_⟩
        simp only [List.mem_cons, forall_eq_or_imp]
        exact ⟨isWordChar_of_isAlpha halpha, fun d hd => List.all_eq_true.1 List.all_takeWhile d hd⟩
      have hclass : ∀ v k, HasKind (c :: v) k → ∀ d ∈ v, isWordChar d := by
        intro v k hv d hd
        rcases hasKind_cons hv with ⟨hc, -⟩ | ⟨-, hv, -⟩ | ⟨-, hc, -⟩
        · exact absurd hc hdigit
        · exact hv.2 d (List.mem_cons_of_mem _ hd)
        · exact absurd halpha hc
      rw [if_pos halpha]
      refine ⟨cs.dropWhile isWordChar, by simp, ?_⟩
      refine isLexeme_of_class (hasKind_ofWord hword) hclass fun hnumber => ?_
      exact absurd (hnumber.2 c List.mem_cons_self) hdigit
    · rw [if_neg halpha]
      have hsymbol : ∀ w rest k, w ++ rest = c :: cs → HasKind w k →
          k ∈ Kind.symbols ∧ k.spelling? = some (String.ofList w) ∧ w <+: c :: cs := by
        intro w rest k heq hw
        cases w with
        | nil => exact absurd rfl hw.ne_nil
        | cons d v =>
          obtain ⟨rfl, rfl⟩ := List.cons.inj heq
          rcases hasKind_cons hw with ⟨hc, -⟩ | ⟨hc, -⟩ | ⟨-, -, hk, hspelling⟩
          · exact absurd hc hdigit
          · exact absurd hc halpha
          · exact ⟨hk, hspelling, ⟨rest, rfl⟩⟩
      cases hfound : symbolAt? (c :: cs) with
      | none =>
        intro w rest k heq hw
        obtain ⟨hk, hspelling, hprefix⟩ := hsymbol w rest k heq hw.kind
        exact symbolAt?_eq_none hfound k hk w hspelling hprefix
      | some found =>
        obtain ⟨k, w⟩ := found
        obtain ⟨hk, hspelling, ⟨rest, heq⟩, hlongest⟩ := symbolAt?_eq_some hfound
        have hkind : HasKind w k := .symbol hk hspelling
        refine ⟨rest, heq.symm, hkind, ?_, ?_⟩
        · intro w' rest' k' heq' hw'
          obtain ⟨hk', hspelling', hprefix⟩ := hsymbol w' rest' k' (heq'.trans heq) hw'
          exact hlongest k' hk' w' hspelling' hprefix
        · intro hnumber
          have hliteral := hkind.unique (.number hnumber)
          rw [hliteral] at hk
          exact absurd hk (by decide)

theorem lexeme_eq_ok_iff {c : Char} {cs w : List Char} {k : Kind} :
    lexeme c cs = (.ok k, w) ↔ ∃ rest, c :: cs = w ++ rest ∧ IsLexeme w rest k := by
  have hspec := lexeme_spec c cs
  constructor
  · intro h
    rw [h] at hspec
    exact hspec
  · rintro ⟨rest, heq, hw⟩
    rcases hlexeme : lexeme c cs with ⟨k' | k', w'⟩ <;> rw [hlexeme] at hspec
    · exact absurd hw (hspec w rest k heq.symm)
    · obtain ⟨rest', heq', hw'⟩ := hspec
      obtain ⟨rfl, -, rfl⟩ := hw.unique hw' (heq'.symm.trans heq)
      rfl

/-! ## Positions -/

theorem position_after (before : List Char) (c : Char) :
    (position before).after c = position (before ++ [c]) := by
  by_cases hc : c = '\n'
  · simp [position, Location.after, hc, Nat.add_assoc]
  · have hc' : ('\n' == c) = false := by simpa using Ne.symm hc
    simp [position, Location.after, hc, Nat.add_assoc]

theorem position_afterAll (before cs : List Char) :
    (position before).afterAll cs = position (before ++ cs) := by
  induction cs generalizing before with
  | nil => simp
  | cons c cs ih =>
    rw [Location.afterAll_cons, position_after, ih, List.append_assoc, List.singleton_append]

/-! ## The scanner -/

open Scanner (token trivia tokensWithin)

theorem trivia_eq_ok_iff {before text : List Char} {cur : Cursor} :
    trivia ⟨text, position before⟩ = .ok () cur ↔
      ∃ g, text = g ++ cur.rest ∧ IsGap g cur.rest ∧ cur.location = position (before ++ g) := by
  refine skip_eq_ok_iff.trans (exists_congr fun g => ?_)
  rw [position_afterAll]
  exact and_congr_right fun _ => and_comm

/-- Behind a gap stands the end of the text or the longest lexeme. -/
theorem token_eq_ok_iff {before text : List Char} {t : Token} {cur : Cursor} :
    token ⟨text, position before⟩ = .ok t cur ↔
      (text = [] ∧ t = .endOfFile (position before) ∧ cur = ⟨[], position before⟩) ∨
      ∃ w, text = w ++ cur.rest ∧ IsLexeme w cur.rest t.kind ∧ t.lexeme = String.ofList w ∧
        t.location = position before ∧ cur.location = position (before ++ w) := by
  cases text with
  | nil =>
    have hempty : ∀ w, [] = w ++ cur.rest → ¬ IsLexeme w cur.rest t.kind := fun w hw hlexeme =>
      hlexeme.kind.ne_nil (List.append_eq_nil_iff.1 hw.symm).1
    constructor
    · intro h
      cases h
      exact .inl ⟨rfl, rfl, rfl⟩
    · rintro (⟨-, rfl, rfl⟩ | ⟨w, hw, hlexeme, -⟩)
      · rfl
      · exact absurd hlexeme (hempty w hw)
  | cons c cs =>
    constructor
    · intro h
      simp only [token] at h
      split at h
      · next k w hlexeme =>
        cases h
        obtain ⟨rest, heq, hw⟩ := lexeme_eq_ok_iff.1 hlexeme
        refine .inr ⟨w, ?_⟩
        simpa only [Cursor.drop, heq, List.drop_left, List.take_left, position_afterAll, true_and,
          and_true] using hw
      · cases h
    · rintro (⟨hnil, -⟩ | ⟨w, heq, hw, hlexeme, hlocation, hcur⟩)
      · cases hnil
      · obtain ⟨kind, lexeme, location⟩ := t
        obtain ⟨rest, curLocation⟩ := cur
        simp only at heq hw hlexeme hlocation hcur
        subst hlexeme hlocation hcur
        simp only [token, lexeme_eq_ok_iff.2 ⟨rest, heq, hw⟩, Cursor.drop, heq, List.drop_left,
          List.take_left, position_afterAll]

theorem scanner_bind_eq_ok {α β : Type} {x : Scanner α} {f : α → Scanner β} {b : β}
    {cur cur' : Cursor} :
    (x >>= f) cur = .ok b cur' ↔ ∃ a cur₁, x cur = .ok a cur₁ ∧ f a cur₁ = .ok b cur' := by
  show EStateM.bind x f cur = _ ↔ _
  unfold EStateM.bind
  cases x cur with
  | error e cur₁ => simp
  | ok a cur₁ => exact ⟨fun h => ⟨a, cur₁, rfl, h⟩, by rintro ⟨_, _, ⟨⟩, h⟩; exact h⟩

variable {out : Scanner (List Token)}

/-- One step of the scanner. -/
theorem tokensWithin_succ {n : Nat} {cur cur' : Cursor} {ts : List Token} :
    tokensWithin out (n + 1) cur = .ok ts cur' ↔
      ∃ cur₁ t cur₂, trivia cur = .ok () cur₁ ∧ token cur₁ = .ok t cur₂ ∧
        if t.kind = .eof then ts = [t] ∧ cur₂ = cur'
        else ∃ ts', ts = t :: ts' ∧ tokensWithin out n cur₂ = .ok ts' cur' := by
  have hrest : ∀ (t : Token) (cur₂ : Cursor),
      (if t.kind = .eof then pure [t] else do return t :: (← tokensWithin out n) : Scanner _) cur₂ =
        .ok ts cur' ↔
      if t.kind = .eof then ts = [t] ∧ cur₂ = cur'
      else ∃ ts', ts = t :: ts' ∧ tokensWithin out n cur₂ = .ok ts' cur' := by
    intro t cur₂
    split
    · constructor
      · rintro ⟨⟩
        exact ⟨rfl, rfl⟩
      · rintro ⟨rfl, rfl⟩
        rfl
    · rw [scanner_bind_eq_ok]
      constructor
      · rintro ⟨ts', _, hts', ⟨⟩⟩
        exact ⟨ts', rfl, hts'⟩
      · rintro ⟨ts', rfl, hts'⟩
        exact ⟨ts', cur', hts', rfl⟩
  simp only [tokensWithin, scanner_bind_eq_ok, hrest]
  exact ⟨fun ⟨_, cur₁, htrivia, t, cur₂, htoken, h⟩ => ⟨cur₁, t, cur₂, htrivia, htoken, h⟩,
    fun ⟨cur₁, t, cur₂, htrivia, htoken, h⟩ => ⟨(), cur₁, htrivia, t, cur₂, htoken, h⟩⟩

theorem tokensWithin_sound {n : Nat} {before text : List Char} {ts : List Token} {cur : Cursor}
    (hn : text.length < n) (h : tokensWithin out n ⟨text, position before⟩ = .ok ts cur) :
    Split before text ts := by
  induction n generalizing before text ts with
  | zero => exact absurd hn (Nat.not_lt_zero _)
  | succ n ih =>
    obtain ⟨⟨rest₁, _⟩, t, ⟨rest₂, _⟩, htrivia, htoken, hrest⟩ := tokensWithin_succ.1 h
    obtain ⟨g, rfl, hgap, rfl⟩ := trivia_eq_ok_iff.1 htrivia
    obtain ⟨rfl, rfl, -⟩ | ⟨w, rfl, hw, hlexeme, hlocation, rfl⟩ := token_eq_ok_iff.1 htoken
    · obtain ⟨rfl, -⟩ := hrest
      rw [List.append_nil]
      exact .last hgap
    · rw [if_neg hw.kind.ne_eof] at hrest
      obtain ⟨ts', rfl, hts'⟩ := hrest
      have hpos := List.length_pos_iff.2 hw.kind.ne_nil
      have hrest : rest₂.length < n := by
        simp only [List.length_append] at hn
        omega
      exact .cons hgap hw hlexeme hlocation (ih hrest hts')

theorem tokensWithin_complete {n : Nat} {before text : List Char} {ts : List Token}
    (hn : text.length < n) (h : Split before text ts) :
    tokensWithin out n ⟨text, position before⟩ = .ok ts ⟨[], position (before ++ text)⟩ := by
  induction h generalizing n with
  | @last before g hgap =>
    obtain ⟨n, rfl⟩ := Nat.exists_eq_add_one.2 (Nat.zero_lt_of_lt hn)
    refine tokensWithin_succ.2 ⟨⟨[], _⟩, _, ⟨[], _⟩, trivia_eq_ok_iff.2 ⟨g, by simp, hgap, rfl⟩,
      token_eq_ok_iff.2 (.inl ⟨rfl, rfl, rfl⟩), ?_⟩
    exact ⟨rfl, rfl⟩
  | @cons before g w rest t ts hgap hw hlexeme hlocation _ ih =>
    have hpos := List.length_pos_iff.2 hw.kind.ne_nil
    simp only [List.length_append] at hn
    obtain ⟨n, rfl⟩ := Nat.exists_eq_add_one.2 (Nat.zero_lt_of_lt hn)
    have hrest := ih (n := n) (by omega)
    refine tokensWithin_succ.2 ⟨⟨w ++ rest, position (before ++ g)⟩, t,
      ⟨rest, position (before ++ g ++ w)⟩, trivia_eq_ok_iff.2 ⟨g, rfl, hgap, rfl⟩,
      token_eq_ok_iff.2 (.inr ⟨w, rfl, hw, hlexeme, hlocation, rfl⟩), ?_⟩
    rw [if_neg hw.kind.ne_eof]
    refine ⟨ts, rfl, ?_⟩
    rwa [List.append_assoc (before ++ g), List.append_assoc before g (w ++ rest)] at hrest

theorem tokenize_eq_ok_iff_split {source : String} {ts : List Token} :
    tokenize source = .ok ts ↔ Split [] source.toList ts := by
  have htokens : Scanner.tokens (.ofString source) =
      tokensWithin (return []) (source.toList.length + 1) ⟨source.toList, position []⟩ := rfl
  unfold tokenize
  rw [htokens]
  constructor
  · intro h
    split at h
    · next hscan =>
      cases h
      exact tokensWithin_sound (Nat.lt_succ_self _) hscan
    · cases h
  · intro h
    rw [tokensWithin_complete (Nat.lt_succ_self _) h]

/-- The end of the file comes last, where the text ends, and nowhere else. -/
theorem Split.endOfFile {before text : List Char} {ts : List Token} (h : Split before text ts) :
    ∃ init, ts = init ++ [Token.endOfFile (position (before ++ text))] ∧ ∀ t ∈ init, t.kind ≠ .eof := by
  induction h with
  | last _ => exact ⟨[], rfl, by simp⟩
  | @cons before g w rest t ts _ hw _ _ _ ih =>
    obtain ⟨init, hts, hinit⟩ := ih
    refine ⟨t :: init, by simp [hts], ?_⟩
    simp only [List.mem_cons, forall_eq_or_imp]
    exact ⟨hw.kind.ne_eof, hinit⟩

end Lpl.Lexing
