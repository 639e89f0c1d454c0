import Lpl.Proofs.Lexing.Split

/-!
# Skipping trivia

**Theorem (`skip_eq_ok_iff`).** The scanner skips exactly the gap at its place.

Where a run of trivia stands, skipping it is one step (`skip_trivial`). It follows that a run which
stops at a character that is neither blank nor opens a comment is the longest one (`isGap_iff`): any
other run leads to the same place, and goes no farther.
-/

namespace Lpl.Lexing

open Trivia

/-- The text does not start with a blank or with a comment. -/
def Stops (rest : List Char) : Prop :=
  (∀ c ∈ rest.head?, ¬ isBlank c) ∧ ¬ ['/', '/'] <+: rest ∧ ¬ ['/', '*'] <+: rest

/-! ## Skipping a run -/

section Skip

variable {l : Location} {body rest : List Char}

theorem skip_line_cons {c : Char} (hc : c ≠ '\n') :
    line.skip l (c :: rest) = line.skip (l.after c) rest :=
  if_neg hc

/-- A character that opens no comment. -/
theorem skip_between_cons {c : Char} (hline : ∀ tail, c = '/' → rest = '/' :: tail → False)
    (hblock : ∀ tail, c = '/' → rest = '*' :: tail → False) :
    between.skip l (c :: rest) =
      if isBlank c then between.skip (l.after c) rest else .ok () ⟨c :: rest, l⟩ := by
  rw [Trivia.skip]
  · exact hline
  · exact hblock

/-- A character that does not end the comment it stands in. -/
theorem skip_block_cons {opened : Location} {c : Char}
    (hc : ∀ tail, c = '*' → rest = '/' :: tail → False) :
    (block opened).skip l (c :: rest) = (block opened).skip (l.after c) rest := by
  rw [Trivia.skip]
  exact hc

theorem skip_lineComment (hbody : '\n' ∉ body) :
    line.skip l (body ++ '\n' :: rest) = between.skip (l.afterAll (body ++ ['\n'])) rest := by
  induction body generalizing l with
  | nil => rfl
  | cons c body ih =>
    rw [List.mem_cons, not_or] at hbody
    rw [List.cons_append, skip_line_cons (Ne.symm hbody.1), ih hbody.2]
    rfl

theorem skip_lineComment_atEnd (hbody : '\n' ∉ body) :
    line.skip l body = .ok () ⟨[], l.afterAll body⟩ := by
  induction body generalizing l with
  | nil => rfl
  | cons c body ih =>
    rw [List.mem_cons, not_or] at hbody
    rw [skip_line_cons (Ne.symm hbody.1), ih hbody.2]
    rfl

theorem skip_blockComment {opened : Location} (hbody : ¬ ['*', '/'] <:+: body) :
    (block opened).skip l (body ++ '*' :: '/' :: rest) =
      between.skip (l.afterAll (body ++ ['*', '/'])) rest := by
  induction body generalizing l with
  | nil => rfl
  | cons c body ih =>
    have htail : ¬ ['*', '/'] <:+: body := fun h => hbody (h.trans (List.suffix_cons c body).isInfix)
    -- No `*/` starts at `c`, neither within the body nor across its end.
    have hopen : ∀ tail, c = '*' → body ++ '*' :: '/' :: rest = '/' :: tail → False := by
      rintro tail rfl heq
      cases body with
      | nil => simp at heq
      | cons d body =>
        obtain rfl : d = '/' := (List.cons.inj heq).1
        exact hbody ⟨[], body, rfl⟩
    rw [List.cons_append, skip_block_cons hopen, ih htail]
    rfl

theorem skip_trivial {g : List Char} (hg : Trivial rest g) :
    between.skip l (g ++ rest) = between.skip (l.afterAll g) rest := by
  induction hg generalizing l with
  | nil => rfl
  | @blank c g hc _ ih =>
    have hslash : c ≠ '/' := by
      rintro rfl
      exact absurd hc (by decide)
    rw [List.cons_append, skip_between_cons (fun _ h => absurd h hslash) (fun _ h => absurd h hslash),
      if_pos hc, ih]
    rfl
  | @line body g hbody _ ih =>
    show line.skip ((l.after '/').after '/') (body ++ '\n' :: g ++ rest) = _
    rw [List.append_assoc, List.cons_append, skip_lineComment hbody, ih]
    simp
  | @lineAtEnd body hbody hend =>
    subst hend
    show line.skip ((l.after '/').after '/') (body ++ []) = _
    rw [List.append_nil, skip_lineComment_atEnd hbody]
    rfl
  | @block body g hbody _ ih =>
    show (block l).skip ((l.after '/').after '*') (body ++ '*' :: '/' :: g ++ rest) = _
    rw [List.append_assoc, List.cons_append, List.cons_append, skip_blockComment hbody, ih]
    simp

theorem skip_stops (h : Stops rest) : between.skip l rest = .ok () ⟨rest, l⟩ := by
  obtain ⟨hblank, hline, hblock⟩ := h
  cases rest with
  | nil => rfl
  | cons c cs =>
    rw [skip_between_cons, if_neg (hblank c rfl)]
    · rintro cs' rfl rfl
      exact hline ⟨cs', rfl⟩
    · rintro cs' rfl rfl
      exact hblock ⟨cs', rfl⟩

end Skip

/-! ## What has been skipped -/

/-- What was read of a comment before the scan stood where it does. -/
def opener : Trivia → List Char
  | between => []
  | line => ['/', '/']
  | block _ => ['/', '*']

theorem Trivial.line_cons {c : Char} {g rest : List Char} (hc : c ≠ '\n')
    (hg : Trivial rest ('/' :: '/' :: g)) : Trivial rest ('/' :: '/' :: c :: g) := by
  cases hg with
  | blank hslash _ => exact absurd hslash (by decide)
  | @line body g hbody hg => exact @Trivial.line _ (c :: body) _ (by simp [hbody, Ne.symm hc]) hg
  | lineAtEnd hbody hend => exact .lineAtEnd (by simp [hbody, Ne.symm hc]) hend

theorem Trivial.block_cons {c : Char} {g rest tail : List Char}
    (hc : ∀ cs, c = '*' → g ++ tail = '/' :: cs → False) (hg : Trivial rest ('/' :: '*' :: g)) :
    Trivial rest ('/' :: '*' :: c :: g) := by
  cases hg with
  | blank hslash _ => exact absurd hslash (by decide)
  | @block body g hbody hg =>
    refine @Trivial.block _ (c :: body) _ ?_ hg
    rw [List.infix_cons_iff]
    rintro (hstart | hinside)
    · obtain ⟨ds, heq⟩ := hstart
      obtain ⟨rfl, rfl⟩ := List.cons.inj heq
      exact hc _ rfl rfl
    · exact hbody hinside

theorem skip_sound {trivia : Trivia} {l : Location} {cs : List Char} {cur : Cursor}
    (h : trivia.skip l cs = .ok () cur) :
    ∃ g, cs = g ++ cur.rest ∧ cur.location = l.afterAll g ∧
      Trivial cur.rest (opener trivia ++ g) ∧ Stops cur.rest := by
  fun_induction Trivia.skip trivia l cs with
  | case1 opened l => cases h
  | case2 trivia l hopen =>
    cases h
    refine ⟨[], rfl, rfl, ?_, by simp [Stops]⟩
    cases trivia with
    | between => exact .nil
    | line => exact .lineAtEnd List.not_mem_nil rfl
    | block opened => exact absurd rfl (hopen opened)
  | case3 l cs ih =>
    obtain ⟨g, rfl, hloc, hg, hstops⟩ := ih h
    exact ⟨'/' :: '/' :: g, rfl, hloc, hg, hstops⟩
  | case4 l cs ih =>
    obtain ⟨g, rfl, hloc, hg, hstops⟩ := ih h
    exact ⟨'/' :: '*' :: g, rfl, hloc, hg, hstops⟩
  | case5 l c cs _ _ hblank ih =>
    obtain ⟨g, rfl, hloc, hg, hstops⟩ := ih h
    exact ⟨c :: g, rfl, hloc, .blank hblank hg, hstops⟩
  | case6 l c cs hline hblock hblank =>
    cases h
    refine ⟨[], rfl, rfl, .nil, ?_, ?_, ?_⟩
    · intro d hd
      obtain rfl : c = d := Option.some.inj hd
      exact hblank
    · rintro ⟨tail, heq⟩
      obtain ⟨rfl, rfl⟩ := List.cons.inj heq
      exact hline tail rfl rfl
    · rintro ⟨tail, heq⟩
      obtain ⟨rfl, rfl⟩ := List.cons.inj heq
      exact hblock tail rfl rfl
  | case7 l cs ih =>
    obtain ⟨g, rfl, hloc, hg, hstops⟩ := ih h
    exact ⟨'\n' :: g, rfl, hloc, @Trivial.line _ [] _ List.not_mem_nil hg, hstops⟩
  | case8 l c cs hc ih =>
    obtain ⟨g, rfl, hloc, hg, hstops⟩ := ih h
    exact ⟨c :: g, rfl, hloc, hg.line_cons hc, hstops⟩
  | case9 opened l cs ih =>
    obtain ⟨g, rfl, hloc, hg, hstops⟩ := ih h
    exact ⟨'*' :: '/' :: g, rfl, hloc, @Trivial.block _ [] _ (by simp) hg, hstops⟩
  | case10 opened l c cs hc ih =>
    obtain ⟨g, rfl, hloc, hg, hstops⟩ := ih h
    exact ⟨c :: g, rfl, hloc, hg.block_cons hc, hstops⟩

/-! ## The longest run -/

theorem Trivial.append {g h rest : List Char} (hg : Trivial (h ++ rest) g) (hh : Trivial rest h) :
    Trivial rest (g ++ h) := by
  induction hg with
  | nil => exact hh
  | blank hc _ ih => exact .blank hc ih
  | line hbody _ ih => simpa using Trivial.line hbody ih
  | lineAtEnd hbody hend =>
    obtain ⟨rfl, rfl⟩ := List.append_eq_nil_iff.1 hend
    rw [List.append_nil]
    exact .lineAtEnd hbody rfl
  | block hbody _ ih => simpa using Trivial.block hbody ih

/-- A line comment can be read wherever one starts. -/
theorem exists_lineComment (cs : List Char) :
    ∃ body rest, cs = body ++ rest ∧ Trivial rest ('/' :: '/' :: body) := by
  by_cases h : '\n' ∈ cs
  · obtain ⟨body, rest, rfl, hbody⟩ := List.eq_append_cons_of_mem h
    exact ⟨body ++ ['\n'], rest, by simp, .line hbody .nil⟩
  · exact ⟨cs, [], by simp, .lineAtEnd h rfl⟩

theorem IsGap.stops {g rest : List Char} (h : IsGap g rest) : Stops rest := by
  -- Trivia at the start of `rest` would make the gap longer.
  have hmaximal : ∀ g' rest', rest = g' ++ rest' → Trivial rest' g' → g' = [] := by
    rintro g' rest' rfl hg'
    have hle := h.longest (g ++ g') rest' (by simp) (h.trivial.append hg')
    rw [List.length_append] at hle
    exact List.length_eq_zero_iff.1 (by omega)
  refine ⟨?_, ?_, h.closed⟩
  · intro c hc hblank
    cases rest with
    | nil => cases hc
    | cons d ds =>
      obtain rfl : d = c := Option.some.inj hc
      exact absurd (hmaximal [d] ds rfl (.blank hblank .nil)) (List.cons_ne_nil _ _)
  · rintro ⟨ds, rfl⟩
    obtain ⟨body, rest', rfl, hbody⟩ := exists_lineComment ds
    exact absurd (hmaximal _ rest' (by simp) hbody) (List.cons_ne_nil _ _)

theorem isGap_iff {g rest : List Char} : IsGap g rest ↔ Trivial rest g ∧ Stops rest := by
  refine ⟨fun h => ⟨h.trivial, h.stops⟩, fun ⟨hg, hstops⟩ => ⟨hg, ?_, hstops.2.2⟩⟩
  intro g' rest' heq hg'
  -- Both runs are skipped, and the scanner then stands where the first one stops.
  have hskip : between.skip (Location.start.afterAll g') rest' =
      .ok () ⟨rest, Location.start.afterAll g⟩ := by
    rw [← skip_trivial hg', heq, skip_trivial hg, skip_stops hstops]
  obtain ⟨h, rfl, -⟩ := skip_sound hskip
  have hlength := congrArg List.length heq
  simp only [List.length_append] at hlength
  omega

theorem skip_eq_ok_iff {l : Location} {cs : List Char} {cur : Cursor} :
    between.skip l cs = .ok () cur ↔
      ∃ g, cs = g ++ cur.rest ∧ cur.location = l.afterAll g ∧ IsGap g cur.rest := by
  constructor
  · intro h
    obtain ⟨g, hcs, hloc, hg, hstops⟩ := skip_sound h
    exact ⟨g, hcs, hloc, isGap_iff.2 ⟨hg, hstops⟩⟩
  · rintro ⟨g, rfl, hloc, hgap⟩
    rw [skip_trivial hgap.trivial, skip_stops hgap.stops, ← hloc]

end Lpl.Lexing
