import Lpl.Proofs.Lexing.Tokenize
import Mathlib.Logic.Function.Iterate

/-!
# Scanning again

**Theorem (`calls_finish`).** A scanner that is called again and again on one text goes on where the call
before it stopped. A call that fails has read something, so of `n` characters at most `n` calls fail. A
call that succeeds has read the text to its end, and each later one gives the end of the file and nothing
else. Between the calls, and between their parts, the location is that of the text read so far.

The parts of a call are each put as `Past`: the cursor stands behind some characters. Trivia may be
empty. A lexeme is not, whether it is a token or a fault, and neither is a comment that never closes.
With that, the bound on the number of tokens never ends a call, whatever would come of it
(`tokensWithin_congr`).
-/

namespace Lpl.Lexing

open Scanner (token trivia tokens tokensWithin)

/-! ## Behind some characters -/

/-- The second cursor is behind the characters `g` that come next at the first. -/
structure Past (c : Cursor) (g : List Char) (c' : Cursor) : Prop where
  rest : c.rest = g ++ c'.rest
  location : c'.location = c.location.afterAll g

namespace Past

variable {c c₁ c' : Cursor} {g h : List Char}

theorem refl (c : Cursor) : Past c [] c := ⟨rfl, rfl⟩

theorem trans (hg : Past c g c₁) (hh : Past c₁ h c') : Past c (g ++ h) c' where
  rest := by rw [hg.rest, hh.rest, List.append_assoc]
  location := by rw [hh.location, hg.location, Location.afterAll_append]

theorem length (hg : Past c g c') : c.rest.length = g.length + c'.rest.length := by
  rw [hg.rest, List.length_append]

theorem length_lt (hg : Past c g c') (hne : g ≠ []) : c'.rest.length < c.rest.length := by
  have hpos := List.length_pos_iff.2 hne
  have hlength := hg.length
  omega

theorem drop (hg : g <+: c.rest) : Past c g (c.drop g.length) := by
  obtain ⟨rest, hrest⟩ := hg
  constructor
  · rw [Cursor.drop, ← hrest, List.drop_left]
  · rw [Cursor.drop, ← hrest, List.take_left]

end Past

/-! ## Trivia -/

theorem skip_error {mode : Trivia} {l : Location} {cs : List Char} {e : LexError} {c : Cursor}
    (h : mode.skip l cs = .error e c) : ∃ g, Past ⟨cs, l⟩ g c ∧ (mode = .between → g ≠ []) := by
  fun_induction Trivia.skip mode l cs with
  | case1 opened l =>
    cases h
    exact ⟨[], .refl _, by rintro ⟨⟩⟩
  | case2 | case6 => cases h
  | case3 l cs ih | case4 l cs ih | case9 _ l cs ih =>
    obtain ⟨g, hg, -⟩ := ih h
    exact ⟨_ :: _ :: g, ⟨congrArg (_ :: _ :: ·) hg.rest, hg.location⟩, fun _ => List.cons_ne_nil _ _⟩
  | case5 l c cs _ _ _ ih | case7 l cs ih | case8 l c cs _ ih | case10 _ l c cs _ ih =>
    obtain ⟨g, hg, -⟩ := ih h
    exact ⟨_ :: g, ⟨congrArg (_ :: ·) hg.rest, hg.location⟩, fun _ => List.cons_ne_nil _ _⟩

theorem past_of_trivia_ok {c c' : Cursor} (h : trivia c = .ok () c') : ∃ g, Past c g c' := by
  obtain ⟨g, hrest, hlocation, -⟩ := skip_sound h
  exact ⟨g, hrest, hlocation⟩

theorem past_of_trivia_error {c c' : Cursor} {e : LexError} (h : trivia c = .error e c') :
    ∃ g, g ≠ [] ∧ Past c g c' := by
  obtain ⟨g, hg, hne⟩ := skip_error h
  exact ⟨g, hne rfl, hg⟩

/-! ## Tokens -/

/-- What is read for a lexeme or a fault starts with its first character. -/
theorem lexeme_prefix (c : Char) (cs : List Char) :
    (lexeme c cs).2 ≠ [] ∧ (lexeme c cs).2 <+: c :: cs := by
  have hclass : ∀ p : Char → Bool, c :: cs.takeWhile p ≠ [] ∧ c :: cs.takeWhile p <+: c :: cs :=
    fun p => ⟨List.cons_ne_nil _ _, List.prefix_cons_inj c |>.2 (List.takeWhile_prefix p)⟩
  unfold lexeme
  split
  · dsimp only
    split
    · exact hclass _
    · exact hclass _
  · split
    · exact hclass _
    · split
      · next k w hfound =>
        obtain ⟨hk, hspelling, hprefix, -⟩ := symbolAt?_eq_some hfound
        exact ⟨HasKind.ne_nil (.symbol hk hspelling), hprefix⟩
      · exact ⟨List.cons_ne_nil _ _, ⟨cs, rfl⟩⟩

/-- A token is the end of the file, or it has characters. -/
theorem past_of_token_ok {c c' : Cursor} {t : Token} (h : token c = .ok t c') :
    (c.rest = [] ∧ t = .endOfFile c.location ∧ c' = c) ∨
      (t.kind ≠ .eof ∧ ∃ w, w ≠ [] ∧ Past c w c') := by
  obtain ⟨rest, l⟩ := c
  cases rest with
  | nil =>
    cases h
    exact .inl ⟨rfl, rfl, rfl⟩
  | cons d ds =>
    obtain ⟨hne, hprefix⟩ := lexeme_prefix d ds
    simp only [token] at h
    split at h
    · next k w hlexeme =>
      cases h
      obtain ⟨_, -, hw⟩ := lexeme_eq_ok_iff.1 hlexeme
      rw [hlexeme] at hne hprefix
      exact .inr ⟨hw.kind.ne_eof, w, hne, .drop hprefix⟩
    · cases h

theorem past_of_token_error {c c' : Cursor} {e : LexError} (h : token c = .error e c') :
    ∃ w, w ≠ [] ∧ Past c w c' := by
  obtain ⟨rest, l⟩ := c
  cases rest with
  | nil => cases h
  | cons d ds =>
    obtain ⟨hne, hprefix⟩ := lexeme_prefix d ds
    simp only [token] at h
    split at h
    · cases h
    · next cause w hlexeme =>
      cases h
      rw [hlexeme] at hne hprefix
      exact ⟨w, hne, .drop hprefix⟩

/-! ## One call -/

section

variable {α β : Type} {x : Scanner α} {f : α → Scanner β} {out out' : Scanner (List Token)}
  {c c' : Cursor} {n m : Nat}

theorem scanner_bind_ok {a : α} (h : x c = .ok a c') : (x >>= f) c = f a c' := by
  show EStateM.bind x f c = _
  simp only [EStateM.bind, h]

theorem scanner_bind_error {e : LexError} (h : x c = .error e c') : (x >>= f) c = .error e c' := by
  show EStateM.bind x f c = _
  simp only [EStateM.bind, h]

theorem tokensWithin_of_trivia_error {e : LexError} (h : trivia c = .error e c') :
    tokensWithin out (n + 1) c = .error e c' :=
  scanner_bind_error h

theorem tokensWithin_of_token_error {c₁ : Cursor} {e : LexError} (htrivia : trivia c = .ok () c₁)
    (h : token c₁ = .error e c') : tokensWithin out (n + 1) c = .error e c' := by
  rw [tokensWithin, scanner_bind_ok htrivia]
  exact scanner_bind_error h

theorem tokensWithin_of_eof {c₁ : Cursor} {t : Token} (htrivia : trivia c = .ok () c₁)
    (h : token c₁ = .ok t c') (ht : t.kind = .eof) : tokensWithin out (n + 1) c = .ok [t] c' := by
  rw [tokensWithin, scanner_bind_ok htrivia, scanner_bind_ok h, if_pos ht]
  rfl

theorem tokensWithin_of_token {c₁ c₂ : Cursor} {t : Token} (htrivia : trivia c = .ok () c₁)
    (h : token c₁ = .ok t c₂) (ht : t.kind ≠ .eof) :
    tokensWithin out (n + 1) c = (tokensWithin out n >>= fun ts => pure (t :: ts)) c₂ := by
  rw [tokensWithin, scanner_bind_ok htrivia, scanner_bind_ok h, if_neg ht]

/-- A call on a cursor `c` ends at its last token, or at a fault behind some characters. -/
theorem past_of_tokensWithin (hn : c.rest.length < n) :
    (∀ {ts c'}, tokensWithin out n c = .ok ts c' → c'.rest = [] ∧ ∃ g, Past c g c') ∧
      ∀ {e c'}, tokensWithin out n c = .error e c' → ∃ g, g ≠ [] ∧ Past c g c' := by
  induction n generalizing c with
  | zero => exact absurd hn (Nat.not_lt_zero _)
  | succ n ih =>
    cases htrivia : trivia c with
    | error e c₁ =>
      rw [tokensWithin_of_trivia_error htrivia]
      refine ⟨fun h => ?_, fun h => ?_⟩
      · cases h
      · cases h
        exact past_of_trivia_error htrivia
    | ok _ c₁ =>
      obtain ⟨g, hg⟩ := past_of_trivia_ok htrivia
      cases htoken : token c₁ with
      | error e c₂ =>
        rw [tokensWithin_of_token_error htrivia htoken]
        obtain ⟨w, hne, hw⟩ := past_of_token_error htoken
        refine ⟨fun h => ?_, fun h => ?_⟩
        · cases h
        · cases h
          exact ⟨g ++ w, by simp [hne], hg.trans hw⟩
      | ok t c₂ =>
        obtain ⟨hend, rfl, rfl⟩ | ⟨ht, w, hne, hw⟩ := past_of_token_ok htoken
        · rw [tokensWithin_of_eof htrivia htoken rfl]
          refine ⟨fun h => ?_, fun h => ?_⟩
          · cases h
            exact ⟨hend, g, hg⟩
          · cases h
        · have hless := hw.length_lt hne
          have hlength := hg.length
          obtain ⟨hok, herror⟩ := ih (c := c₂) (by omega)
          rw [tokensWithin_of_token htrivia htoken ht]
          cases hrest : tokensWithin out n c₂ with
          | ok ts c₃ =>
            rw [scanner_bind_ok hrest]
            refine ⟨fun h => ?_, fun h => ?_⟩
            · cases h
              obtain ⟨hend, h, hh⟩ := hok hrest
              exact ⟨hend, _, (hg.trans hw).trans hh⟩
            · cases h
          | error e c₃ =>
            rw [scanner_bind_error hrest]
            refine ⟨fun h => ?_, fun h => ?_⟩
            · cases h
            · cases h
              obtain ⟨h, -, hh⟩ := herror hrest
              exact ⟨g ++ w ++ h, by simp [hne], (hg.trans hw).trans hh⟩

/-- At the end of the text a call gives the end of the file. -/
theorem tokensWithin_nil (n : Nat) (l : Location) :
    tokensWithin out (n + 1) ⟨[], l⟩ = .ok [.endOfFile l] ⟨[], l⟩ :=
  tokensWithin_of_eof (show trivia ⟨[], l⟩ = .ok () ⟨[], l⟩ from rfl) rfl rfl

/-- The bound on the number of tokens ends no call. -/
theorem tokensWithin_congr (hn : c.rest.length < n) (hm : c.rest.length < m) :
    tokensWithin out n c = tokensWithin out' m c := by
  induction n generalizing c m with
  | zero => exact absurd hn (Nat.not_lt_zero _)
  | succ n ih =>
    obtain ⟨m, rfl⟩ := Nat.exists_eq_add_one.2 (Nat.zero_lt_of_lt hm)
    cases htrivia : trivia c with
    | error e c₁ => rw [tokensWithin_of_trivia_error htrivia, tokensWithin_of_trivia_error htrivia]
    | ok _ c₁ =>
      obtain ⟨g, hg⟩ := past_of_trivia_ok htrivia
      cases htoken : token c₁ with
      | error e c₂ =>
        rw [tokensWithin_of_token_error htrivia htoken, tokensWithin_of_token_error htrivia htoken]
      | ok t c₂ =>
        obtain ⟨-, rfl, -⟩ | ⟨ht, w, hne, hw⟩ := past_of_token_ok htoken
        · rw [tokensWithin_of_eof htrivia htoken rfl, tokensWithin_of_eof htrivia htoken rfl]
        · have hless := hw.length_lt hne
          have hlength := hg.length
          have hrest := ih (c := c₂) (m := m) (by omega) (by omega)
          rw [tokensWithin_of_token htrivia htoken ht, tokensWithin_of_token htrivia htoken ht]
          show EStateM.bind _ _ c₂ = EStateM.bind _ _ c₂
          simp only [EStateM.bind, hrest]

end

/-! ## Call after call -/

/-- The cursor where a scanner stops, with a result or a fault. -/
def Stopped {α : Type} (x : Scanner α) (c c' : Cursor) : Prop :=
  (∃ a, x c = .ok a c') ∨ ∃ e, x c = .error e c'

/-- The cursors that calls on a text come to, at their ends and between their parts. -/
inductive Reached (source : String) : Cursor → Prop
  | start : Reached source (.ofString source)
  | trivia {c c'} : Reached source c → Stopped Scanner.trivia c c' → Reached source c'
  | token {c c'} : Reached source c → Stopped Scanner.token c c' → Reached source c'
  | call {c c'} : Reached source c → Stopped Scanner.tokens c c' → Reached source c'

theorem past_of_tokens {c c' : Cursor} (h : Stopped tokens c c') : ∃ g, Past c g c' := by
  obtain ⟨hok, herror⟩ := past_of_tokensWithin (c := c) (Nat.lt_succ_self _)
  rcases h with ⟨ts, h⟩ | ⟨e, h⟩
  · exact (hok h).2
  · obtain ⟨g, -, hg⟩ := herror h
    exact ⟨g, hg⟩

/-- Every cursor is at the place of the text that was read before it. -/
theorem Reached.located {source : String} {c : Cursor} (h : Reached source c) :
    ∃ before, source.toList = before ++ c.rest ∧ c.location = position before := by
  have hstep : ∀ {c c' : Cursor} {g : List Char}, Past c g c' →
      (∃ before, source.toList = before ++ c.rest ∧ c.location = position before) →
      ∃ before, source.toList = before ++ c'.rest ∧ c'.location = position before := by
    rintro c c' g hg ⟨before, htext, hlocation⟩
    refine ⟨before ++ g, ?_, ?_⟩
    · rw [htext, hg.rest, List.append_assoc]
    · rw [hg.location, hlocation, position_afterAll]
  induction h with
  | start => exact ⟨[], rfl, rfl⟩
  | @trivia c c' _ h ih =>
    rcases h with ⟨_, h⟩ | ⟨e, h⟩
    · obtain ⟨g, hg⟩ := past_of_trivia_ok h
      exact hstep hg ih
    · obtain ⟨g, -, hg⟩ := past_of_trivia_error h
      exact hstep hg ih
  | @token c c' _ h ih =>
    rcases h with ⟨t, h⟩ | ⟨e, h⟩
    · obtain ⟨-, -, rfl⟩ | ⟨-, g, -, hg⟩ := past_of_token_ok h
      · exact ih
      · exact hstep hg ih
    · obtain ⟨g, -, hg⟩ := past_of_token_error h
      exact hstep hg ih
  | call _ h ih =>
    obtain ⟨g, hg⟩ := past_of_tokens h
    exact hstep hg ih

/-- The cursor that a call leaves. -/
def leave (c : Cursor) : Cursor :=
  match tokens c with
  | .ok _ c' => c'
  | .error _ c' => c'

/-- Whether a call fails. -/
def fails (c : Cursor) : Bool :=
  match tokens c with
  | .ok _ _ => false
  | .error _ _ => true

/-- The cursor behind `k` calls on a text. -/
def afterCalls (source : String) (k : Nat) : Cursor := leave^[k] (.ofString source)

theorem afterCalls_succ (source : String) (k : Nat) :
    afterCalls source (k + 1) = leave (afterCalls source k) :=
  Function.iterate_succ_apply' leave k _

theorem leave_of_ok {c c' : Cursor} {ts : List Token} (h : tokens c = .ok ts c') : leave c = c' := by
  unfold leave
  rw [h]

theorem leave_of_error {c c' : Cursor} {e : LexError} (h : tokens c = .error e c') : leave c = c' := by
  unfold leave
  rw [h]

theorem stopped_leave (c : Cursor) : Stopped tokens c (leave c) := by
  cases h : tokens c with
  | ok ts c' => exact .inl ⟨ts, by rw [leave_of_ok h, h]⟩
  | error e c' => exact .inr ⟨e, by rw [leave_of_error h, h]⟩

theorem reached_afterCalls (source : String) (k : Nat) : Reached source (afterCalls source k) := by
  induction k with
  | zero => exact .start
  | succ k ih =>
    rw [afterCalls_succ]
    exact .call ih (stopped_leave _)

/-- A failure is paid for with a character. -/
theorem countP_fails_add_length (source : String) (k : Nat) :
    (List.range k).countP (fun j => fails (afterCalls source j)) + (afterCalls source k).rest.length ≤
      source.toList.length := by
  induction k with
  | zero => exact Nat.le_of_eq (Nat.zero_add _)
  | succ k ih =>
    rw [List.range_succ, List.countP_append, List.countP_singleton, afterCalls_succ]
    cases h : tokens (afterCalls source k) with
    | ok ts c' =>
      obtain ⟨hend, -⟩ := (past_of_tokensWithin (Nat.lt_succ_self _)).1 h
      have hfails : fails (afterCalls source k) = false := by
        unfold fails
        rw [h]
      rw [leave_of_ok h, hend, hfails]
      simp only [Bool.false_eq_true, if_false, List.length_nil]
      omega
    | error e c' =>
      obtain ⟨g, hne, hg⟩ := (past_of_tokensWithin (Nat.lt_succ_self _)).2 h
      have hless := hg.length_lt hne
      rw [leave_of_error h]
      split <;> omega

/-- Behind a call that succeeded there is nothing but the end of the file. -/
theorem tokens_afterCalls_of_end {source : String} {k : Nat} {l : Location}
    (h : afterCalls source k = ⟨[], l⟩) {j : Nat} (hj : k ≤ j) :
    tokens (afterCalls source j) = .ok [.endOfFile l] ⟨[], l⟩ := by
  have hstays : afterCalls source j = ⟨[], l⟩ := by
    induction hj with
    | refl => exact h
    | step _ ih =>
      rw [afterCalls_succ, ih]
      exact leave_of_ok (tokensWithin_nil 0 l)
  rw [hstays]
  exact tokensWithin_nil 0 l

/-- Calls on one text fail at most once for each of its characters, and each time behind at least one of
them. The first that succeeds reads to the end, and from then on only the end of the file is left. -/
theorem calls_finish (source : String) :
    (∀ c, Reached source c →
      ∃ before, source.toList = before ++ c.rest ∧ c.location = position before) ∧
    (∀ k, Reached source (afterCalls source k)) ∧
    (∀ k e c', tokens (afterCalls source k) = .error e c' →
      c' = afterCalls source (k + 1) ∧ c'.rest.length < (afterCalls source k).rest.length) ∧
    (∀ k ts c', tokens (afterCalls source k) = .ok ts c' →
      c' = afterCalls source (k + 1) ∧ c'.rest = [] ∧
        ∀ j, k < j → tokens (afterCalls source j) = .ok [.endOfFile c'.location] c') ∧
    (∀ k, (List.range k).countP (fun j => fails (afterCalls source j)) ≤ source.length) ∧
    ∀ k out n, (afterCalls source k).rest.length < n →
      tokensWithin out n (afterCalls source k) = tokens (afterCalls source k) := by
  refine ⟨fun c hc => hc.located, reached_afterCalls source, ?_, ?_, ?_, ?_⟩
  · intro k e c' h
    obtain ⟨g, hne, hg⟩ := (past_of_tokensWithin (Nat.lt_succ_self _)).2 h
    exact ⟨by rw [afterCalls_succ, leave_of_error h], hg.length_lt hne⟩
  · intro k ts c' h
    obtain ⟨hend, -⟩ := (past_of_tokensWithin (Nat.lt_succ_self _)).1 h
    have hnext : c' = afterCalls source (k + 1) := by rw [afterCalls_succ, leave_of_ok h]
    obtain ⟨rest, l⟩ := c'
    obtain rfl : rest = [] := hend
    exact ⟨hnext, rfl, fun j hj => tokens_afterCalls_of_end hnext.symm hj⟩
  · intro k
    have hpaid := countP_fails_add_length source k
    rw [← String.length_toList]
    omega
  · intro k out n hn
    exact tokensWithin_congr hn (Nat.lt_succ_self _)

/-- A `&` alone, a number out of range, and a comment that never closes. -/
def threeFaults : String := "x &\n2147483649/*y"

/-- The first three calls fail, and the fourth finds the end of the file where the third had come to. -/
theorem calls_finish_threeFaults :
    (List.range 3).map (fun k => fails (afterCalls threeFaults k)) = [true, true, true] ∧
      tokens (afterCalls threeFaults 3) = .ok [.endOfFile ⟨2, 14⟩] ⟨[], ⟨2, 14⟩⟩ ∧
      tokens (afterCalls threeFaults 4) = .ok [.endOfFile ⟨2, 14⟩] ⟨[], ⟨2, 14⟩⟩ := by
  obtain ⟨-, -, -, hok, -, -⟩ := calls_finish threeFaults
  have hthird : afterCalls threeFaults 3 = ⟨[], ⟨2, 14⟩⟩ := by decide +kernel
  have hcall : tokens (afterCalls threeFaults 3) = .ok [.endOfFile ⟨2, 14⟩] ⟨[], ⟨2, 14⟩⟩ := by
    rw [hthird]
    rfl
  exact ⟨by decide +kernel, hcall, (hok 3 _ _ hcall).2.2 4 (by decide)⟩

end Lpl.Lexing
