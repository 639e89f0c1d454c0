import Lpl.Proofs.Lookahead.Program
import Lpl.Proofs.Parsing.Mirror
import Mathlib.Logic.Function.Iterate

/-!
# Calls on one token vector

A parser that reads from a vector and is called again goes on where the last call stopped, whether that
one failed or not.

**Theorem (`calls_in_range`).** Every call ends, with a program or with an error about its tokens: no bound
is used up, and no token is asked for where there is none. At every moment of it the tokens are the ones
of the start, and the position is in range. It never goes back and never goes past the first end of file.
A call depends on nothing but the tokens from the position where it starts to the one where it stops, so
what is behind the first end of file makes no difference.

Nothing of this is built into a vector (`TokenVector`). It is shown through the stream of the tokens from
the position on (`streamAt`), which mirrors the vector as long as some end of file is still to come. To
speak of all moments of a call, the vectors that it passes are kept (`Trail`).
-/

namespace Lpl

open TokenStream Grammar

variable {ts us v w : List Token} {s : TokenStream} {p q : Nat}

/-! ## Streams at positions -/

/-- The stream of a token list from a position on. -/
def streamAt (v : List Token) (p : Nat) : TokenStream := .ofTokens (v.drop p)

/-- From the position on there is an end of file. -/
def EndsFrom (v : List Token) (p : Nat) : Prop := ∃ t ∈ v.drop p, t.kind = .eof

namespace EndsFrom

theorem lt_length (h : EndsFrom v p) : p < v.length := by
  obtain ⟨t, ht, -⟩ := h
  have hpos := List.length_pos_of_mem ht
  rw [List.length_drop] at hpos
  omega

theorem mono (h : EndsFrom v q) (hpq : p ≤ q) : EndsFrom v p := by
  obtain ⟨t, ht, heof⟩ := h
  exact ⟨t, (List.drop_sublist_drop_left v hpq).mem ht, heof⟩

theorem exists_drop (h : EndsFrom v p) : ∃ t, v[p]? = some t ∧ v.drop p = t :: v.drop (p + 1) :=
  ⟨_, List.getElem?_eq_getElem h.lt_length, List.drop_eq_getElem_cons h.lt_length⟩

/-- The next token of the stream is the one at the position. -/
theorem head (h : EndsFrom v p) : v[p]? = some (streamAt v p).head := by
  obtain ⟨t, ht, hdrop⟩ := h.exists_drop
  rw [ht, streamAt, hdrop, head_ofTokens_cons]

theorem next (h : EndsFrom v p) (hne : (streamAt v p).head.kind ≠ .eof) :
    EndsFrom v (p + 1) ∧ streamAt v p = cons (streamAt v p).head (streamAt v (p + 1)) := by
  obtain ⟨t, -, hdrop⟩ := h.exists_drop
  have hhead : (streamAt v p).head = t := by rw [streamAt, hdrop, head_ofTokens_cons]
  rw [hhead] at hne ⊢
  obtain ⟨u, hu, heof⟩ := h
  rw [hdrop, List.mem_cons] at hu
  have hnext : EndsFrom v (p + 1) := ⟨u, hu.resolve_left fun hut => hne (hut ▸ heof), heof⟩
  obtain ⟨t', -, hdrop'⟩ := hnext.exists_drop
  refine ⟨hnext, ?_⟩
  rw [streamAt, streamAt, hdrop, hdrop']
  exact ofTokens_append_cons (noEof_cons.2 ⟨hne, noEof_nil⟩)

/-- Behind the first token of the stream the stream of the next position goes on. -/
theorem tail {t : Token} (h : EndsFrom v p) (hs : streamAt v p = (t :: us) ++ s) :
    t.kind ≠ .eof ∧ EndsFrom v (p + 1) ∧ streamAt v (p + 1) = us ++ s := by
  have hmem : t ∈ (streamAt v p).ahead := by
    rw [hs]
    exact List.mem_cons_self ..
  have ht : t.kind ≠ .eof := noEof_ahead _ t hmem
  have hhead : (streamAt v p).head = t := congrArg TokenStream.head hs
  obtain ⟨hnext, hcons⟩ := h.next (hhead ▸ ht)
  exact ⟨ht, hnext, congrArg TokenStream.tail (hcons.symm.trans hs)⟩

/-- What is left of the stream when tokens are taken off is the stream of a later position. -/
theorem append (h : EndsFrom v p) (hs : streamAt v p = us ++ s) :
    EndsFrom v (p + us.length) ∧ streamAt v (p + us.length) = s := by
  induction us generalizing p with
  | nil => exact ⟨h, hs⟩
  | cons u us ih =>
    obtain ⟨-, hnext, htail⟩ := h.tail hs
    rw [List.length_cons, Nat.add_comm us.length 1, ← Nat.add_assoc]
    exact ih hnext htail

theorem advance_of_eof (h : EndsFrom v p) (heof : (streamAt v p).head.kind = .eof) :
    TokenVector.advance ⟨v, p⟩ = ⟨v, p⟩ := by
  refine if_pos ?_
  rw [h.head]
  exact congrArg some heof

theorem advance_of_ne (h : EndsFrom v p) (hne : (streamAt v p).head.kind ≠ .eof) :
    TokenVector.advance ⟨v, p⟩ = ⟨v, p + 1⟩ := by
  refine if_neg fun heq => hne ?_
  rw [h.head] at heq
  exact Option.some.inj heq

/-- To advance is to take the next token off the stream, unless that is an end of file. -/
theorem advance (h : EndsFrom v p) : ∃ us : List Token,
    streamAt v p = us ++ (streamAt v p).tail ∧ TokenVector.advance ⟨v, p⟩ = ⟨v, p + us.length⟩ := by
  by_cases heof : (streamAt v p).head.kind = .eof
  · obtain ⟨t, -, hdrop⟩ := h.exists_drop
    have ht : t.kind = .eof := by rw [← heof, streamAt, hdrop, head_ofTokens_cons]
    have hstream : streamAt v p = ⟨[], t⟩ := by rw [streamAt, hdrop, ofTokens_cons_eof ht]
    exact ⟨[], by rw [hstream]; rfl, h.advance_of_eof heof⟩
  · exact ⟨[(streamAt v p).head], eq_cons_of_ends (kind_endOf _) heof, h.advance_of_ne heof⟩

theorem length_ahead (h : EndsFrom v p) : p + (streamAt v p).ahead.length < v.length := by
  have hsplit : streamAt v p = (streamAt v p).ahead ++ (⟨[], (streamAt v p).last⟩ : TokenStream) :=
    congrArg (TokenStream.mk · _) (List.append_nil _).symm
  exact (h.append hsplit).1.lt_length

end EndsFrom

/-- The index of the first end of file. -/
def endIndex (v : List Token) : Nat := v.findIdx fun t => t.kind = .eof

theorem kind_endIndex (hv : endIndex v < v.length) : v[endIndex v].kind = .eof := by
  have heof := List.findIdx_getElem (w := hv)
  exact of_decide_eq_true heof

theorem endsFrom_of_le_endIndex (hv : endIndex v < v.length) (hp : p ≤ endIndex v) : EndsFrom v p := by
  refine EndsFrom.mono ⟨_, ?_, kind_endIndex hv⟩ hp
  rw [List.drop_eq_getElem_cons hv]
  exact List.mem_cons_self ..

theorem kind_head_iff (hv : endIndex v < v.length) (hp : p ≤ endIndex v) :
    (streamAt v p).head.kind = .eof ↔ p = endIndex v := by
  obtain ⟨hlt, hget⟩ := List.getElem?_eq_some_iff.1 (endsFrom_of_le_endIndex hv hp).head
  constructor
  · intro heof
    refine Nat.le_antisymm hp (Nat.le_of_not_lt fun hbefore => ?_)
    exact of_decide_eq_false (List.not_of_lt_findIdx hbefore) (hget ▸ heof)
  · rintro rfl
    rw [← hget]
    exact kind_endIndex hv

/-- The tokens that are taken end at the first end of file. -/
theorem add_length_le_endIndex (hv : endIndex v < v.length) (hp : p ≤ endIndex v)
    (hs : streamAt v p = us ++ s) : p + us.length ≤ endIndex v := by
  induction us generalizing p with
  | nil => exact hp
  | cons u us ih =>
    obtain ⟨hu, -, htail⟩ := (endsFrom_of_le_endIndex hv hp).tail hs
    have hne : p ≠ endIndex v := fun heq => by
      have heof := (kind_head_iff hv hp).2 heq
      rw [hs] at heof
      exact hu heof
    have hrest := ih (by omega) htail
    rw [List.length_cons]
    omega

/-- To advance is to go to the next index, but for the first end of file. -/
theorem advance_of_le_endIndex (hv : endIndex v < v.length) (hp : p ≤ endIndex v) :
    TokenVector.advance ⟨v, p⟩ = ⟨v, min (p + 1) (endIndex v)⟩ := by
  have hends := endsFrom_of_le_endIndex hv hp
  by_cases heof : (streamAt v p).head.kind = .eof
  · obtain rfl := (kind_head_iff hv hp).1 heof
    rw [hends.advance_of_eof heof, Nat.min_eq_right (Nat.le_succ _)]
  · have hne : p ≠ endIndex v := fun heq => heof ((kind_head_iff hv hp).2 heq)
    rw [hends.advance_of_ne heof, Nat.min_eq_left (by omega)]

/-! ## Trails -/

/-- A vector, and the ones that were passed on the way to it, the latest first. -/
structure Trail where
  now : TokenVector
  passed : List TokenVector

namespace Trail

instance : TokenSource Trail where
  peek? u := TokenSource.peek? u.now
  second? u := TokenSource.second? u.now
  advance u := ⟨u.now.advance, u.now :: u.passed⟩

/-- At every moment the tokens are those of `x`, and the position is in range and not before that of `x`.
It never goes back. -/
structure Onward (x : TokenVector) (u : Trail) : Prop where
  tokens : ∀ y ∈ u.now :: u.passed, y.tokens = x.tokens
  in_range : ∀ y ∈ u.now :: u.passed, x.position ≤ y.position ∧ y.position < x.tokens.length
  ordered : (u.now :: u.passed).Pairwise fun y z => z.position ≤ y.position

variable {x : TokenVector} {u : Trail}

theorem onward_start (h : x.position < x.tokens.length) : Onward x ⟨x, []⟩ where
  tokens y hy := by rw [List.mem_singleton.1 hy]
  in_range y hy := by
    rw [List.mem_singleton.1 hy]
    exact ⟨Nat.le_refl _, h⟩
  ordered := List.pairwise_singleton ..

theorem Onward.step (h : Onward x u) (hle : u.now.position ≤ p) (hp : p < x.tokens.length) :
    Onward x ⟨⟨x.tokens, p⟩, u.now :: u.passed⟩ where
  tokens := List.forall_mem_cons.2 ⟨rfl, h.tokens⟩
  in_range := by
    have hnow := h.in_range u.now (List.mem_cons_self ..)
    exact List.forall_mem_cons.2 ⟨⟨by dsimp only; omega, hp⟩, h.in_range⟩
  ordered := by
    obtain ⟨hpassed, -⟩ := List.pairwise_cons.1 h.ordered
    refine List.pairwise_cons.2 ⟨List.forall_mem_cons.2 ⟨hle, fun y hy => ?_⟩, h.ordered⟩
    exact Nat.le_trans (hpassed y hy) hle

/-- The trail has come from `x` to where `s` is what is left of the stream. -/
structure Shows (x : TokenVector) (u : Trail) (s : TokenStream) : Prop where
  onward : Onward x u
  split : ∃ us : List Token, streamAt x.tokens x.position = us ++ s ∧
    u.now = ⟨x.tokens, x.position + us.length⟩

namespace Shows

theorem start (hx : EndsFrom x.tokens x.position) :
    Shows x ⟨x, []⟩ (streamAt x.tokens x.position) :=
  ⟨onward_start hx.lt_length, [], rfl, rfl⟩

theorem place (h : Shows x u s) (hx : EndsFrom x.tokens x.position) :
    ∃ p, u.now = ⟨x.tokens, p⟩ ∧ EndsFrom x.tokens p ∧ streamAt x.tokens p = s := by
  obtain ⟨us, hsplit, hnow⟩ := h.split
  exact ⟨_, hnow, hx.append hsplit⟩

theorem peek (h : Shows x u s) (hx : EndsFrom x.tokens x.position) :
    TokenSource.peek? u = some s.head := by
  obtain ⟨p, hnow, hends, rfl⟩ := h.place hx
  show u.now.tokens[u.now.position]? = _
  rw [hnow]
  exact hends.head

theorem second (h : Shows x u s) (hx : EndsFrom x.tokens x.position) (hne : s.head.kind ≠ .eof) :
    TokenSource.second? u = some s.second := by
  obtain ⟨p, hnow, hends, rfl⟩ := h.place hx
  obtain ⟨hnext, hcons⟩ := hends.next hne
  show u.now.tokens[u.now.position + 1]? = _
  rw [hnow, hcons]
  exact hnext.head

theorem advance (h : Shows x u s) (hx : EndsFrom x.tokens x.position) :
    Shows x (TokenSource.advance u) s.tail := by
  obtain ⟨us, hsplit, hnow⟩ := h.split
  obtain ⟨hends, rfl⟩ := hx.append hsplit
  obtain ⟨vs, htail, hadvance⟩ := hends.advance
  rw [← hnow] at hadvance
  have hboth : streamAt x.tokens x.position =
      (us ++ vs) ++ (streamAt x.tokens (x.position + us.length)).tail := by
    rw [append_append, ← htail]
    exact hsplit
  have hrange := (hx.append hboth).1.lt_length
  rw [Nat.add_assoc, ← List.length_append] at hadvance
  refine ⟨?_, us ++ vs, hboth, hadvance⟩
  show Onward x ⟨u.now.advance, u.now :: u.passed⟩
  rw [hadvance]
  refine h.onward.step ?_ hrange
  rw [hnow, List.length_append]
  dsimp only
  omega

end Shows

/-- A trail from `x` shows what its stream shows. -/
def reading (x : TokenVector) (hx : EndsFrom x.tokens x.position) : Mirror Trail TokenStream :=
  .exact (Shows x) (fun h => (h.peek hx).symm)
    (fun h hpeek hne => (h.second hx (Option.some.inj ((h.peek hx).symm.trans hpeek) ▸ hne)).symm)
    fun h => h.advance hx

/-- A trail shows what the vector it has come to shows. -/
def keeping : Mirror TokenVector Trail :=
  .exact (fun x u => u.now = x) (fun h => h ▸ rfl) (fun h _ _ => h ▸ rfl) fun h => h ▸ rfl

end Trail

namespace Parser

/-! ## One call -/

section

variable {σ τ ε : Type} [TokenSource σ] [TokenSource τ] {r : Except ParseError Program}

/-- The result of a parser that ends because of its tokens, with the answer `r`, at a source. -/
def concluded (f : ParseError → ε) (r : Except ParseError Program) (s : σ) :
    EStateM.Result ε σ Program :=
  match r with
  | .ok p => .ok p s
  | .error e => .error (f e) s

/-- Between sources that show the very same tokens, an answer carries over. -/
theorem concluded_of_mirror {M : Mirror σ τ} (hM : M.toRelocation = .identity) {s : σ} {t t' : τ} {n : Nat}
    (h : M.Related s t) (ht : programWithin n t = concluded .rejected r t') :
    ∃ s', programWithin n s = concluded .rejected r s' ∧ M.Related s' t' := by
  have hprogram : M.program = id := by rw [hM, Relocation.program_identity]
  have hstop : M.stop = id := by rw [hM, Relocation.stop_identity]
  have hagree := corresponds_programWithin (M := M) n h
  generalize programWithin n s = rs at hagree ⊢
  generalize programWithin n t = rt at hagree ht
  cases hagree with
  | ok hrel =>
    rw [hprogram] at ht
    cases r <;> cases ht
    exact ⟨_, rfl, hrel⟩
  | error hrel =>
    rw [hstop] at ht
    cases r <;> cases ht
    exact ⟨_, rfl, hrel⟩

end

/-- A call on the vector `x` ends with the answer `r` at `y`: however large the bound is, and with all
moments between the two in order. -/
structure Call (x : TokenVector) (r : Except ParseError Program) (y : TokenVector) : Prop where
  ends : ∀ n ≥ x.tokens.length, programWithin n x = concluded .rejected r y
  onward : ∀ n ≥ x.tokens.length, ∃ passed, Trail.Onward x ⟨y, passed⟩ ∧
    programWithin n (Trail.mk x []) = concluded .rejected r ⟨y, passed⟩

/-- A stream is read as far as the tokens taken and the next one decide, and gives the same answer with any
other end. -/
theorem exists_concluded (hs : s.last.kind = .eof) :
    ∃ (r : Except ParseError Program) (us : List Token) (s' : TokenStream), s = us ++ s' ∧
      ∀ t : TokenStream, t.last.kind = .eof → t.head = s'.head →
      ∀ n, (us ++ t).ahead.length < n → programWithin n (us ++ t) = concluded .rejected r t := by
  have hsettles := fun n => settles_program (m := n) hs (Nat.lt_succ_self s.ahead.length)
  cases h : programWithin (s.ahead.length + 1) s with
  | ok p s' =>
    -- The tokens taken are the same for all bounds, since the stream left is.
    obtain ⟨us, hus, -⟩ := (hsettles 0).ok h
    refine ⟨.ok p, us, s', hus, fun t ht hhead n hn => ?_⟩
    obtain ⟨vs, hvs, -, htransfer⟩ := (hsettles n).ok h
    obtain rfl := append_right_cancel (hus.symm.trans hvs)
    exact htransfer t ⟨ht, .inl hhead, by simpa using hn⟩
  | error stop s' =>
    obtain ⟨e, -, -, rfl, -⟩ := (hsettles 0).blame h
    obtain ⟨us, hus, -⟩ := (hsettles 0).error h
    refine ⟨.error e, us, s', hus, fun t ht hhead n hn => ?_⟩
    obtain ⟨vs, hvs, htransfer⟩ := (hsettles n).error h
    obtain rfl := append_right_cancel (hus.symm.trans hvs)
    exact htransfer t ⟨ht, hhead, by simpa using hn⟩

theorem program_eq_concluded {r : Except ParseError Program} {s' : TokenStream}
    (h : programWithin (s.ahead.length + 1) s = concluded .rejected r s') :
    program s = concluded id r s' := by
  cases r with
  | ok p => exact program_eq_ok.2 h
  | error e => exact program_of_rejected h

/-- A vector is read as its stream is. -/
theorem call_of_stream {r : Except ParseError Program} (h : EndsFrom v p)
    (hs : streamAt v p = us ++ s)
    (hread : ∀ n, (streamAt v p).ahead.length < n →
      programWithin n (streamAt v p) = concluded .rejected r s) :
    Call ⟨v, p⟩ r ⟨v, p + us.length⟩ := by
  have hlength := h.length_ahead
  have htrail : ∀ n ≥ v.length, ∃ passed, Trail.Onward ⟨v, p⟩ ⟨⟨v, p + us.length⟩, passed⟩ ∧
      programWithin n (Trail.mk ⟨v, p⟩ []) = concluded .rejected r ⟨⟨v, p + us.length⟩, passed⟩ := by
    intro n hn
    obtain ⟨⟨now, passed⟩, hcall, hshows⟩ := concluded_of_mirror (M := Trail.reading ⟨v, p⟩ h) rfl
      (Trail.Shows.start (x := ⟨v, p⟩) h) (hread n (by omega))
    obtain ⟨vs, hvs, hnow⟩ := hshows.split
    obtain rfl := append_right_cancel (hs.symm.trans hvs)
    obtain rfl := hnow
    exact ⟨passed, hshows.onward, hcall⟩
  refine ⟨fun n hn => ?_, htrail⟩
  obtain ⟨passed, -, hcall⟩ := htrail n hn
  obtain ⟨y, hy, rfl⟩ := concluded_of_mirror (M := Trail.keeping) rfl rfl hcall
  exact hy

/-- Two lists with the same tokens from one position to another. -/
def AgreeOn (p q : Nat) (v w : List Token) : Prop := ∀ i, p ≤ i → i ≤ q → w[i]? = v[i]?

theorem streamAt_of_agreeOn (h : EndsFrom v p) (hs : streamAt v p = us ++ s)
    (hw : EndsFrom w (p + us.length)) (hagree : AgreeOn p (p + us.length) v w) :
    streamAt w p = us ++ streamAt w (p + us.length) ∧ (streamAt w (p + us.length)).head = s.head := by
  induction us generalizing p with
  | nil =>
    have hhead := hw.head.symm.trans ((hagree p (Nat.le_refl _) (Nat.le_refl _)).trans h.head)
    exact ⟨rfl, (Option.some.inj hhead).trans (congrArg TokenStream.head hs)⟩
  | cons u us ih =>
    have hwp := hw.mono (Nat.le_add_right ..)
    have hhead := hwp.head.symm.trans ((hagree p (Nat.le_refl _) (Nat.le_add_right ..)).trans h.head)
    have hu : (streamAt w p).head = u := (Option.some.inj hhead).trans (congrArg TokenStream.head hs)
    obtain ⟨hne, hnext, htail⟩ := h.tail hs
    rw [List.length_cons, Nat.add_comm us.length 1, ← Nat.add_assoc] at hw hagree ⊢
    obtain ⟨hstream, hlast⟩ := ih hnext htail hw fun i hi => hagree i (Nat.le_of_succ_le hi)
    obtain ⟨-, hcons⟩ := hwp.next (hu ▸ hne)
    rw [hu, hstream] at hcons
    exact ⟨hcons, hlast⟩

/-- A call from a position with an end of file ahead, on every list with the same tokens up to where it
stops. -/
theorem exists_call (h : EndsFrom v p) :
    ∃ (r : Except ParseError Program) (us : List Token), streamAt v p = us ++ streamAt v (p + us.length) ∧
      ∀ w, EndsFrom w (p + us.length) → AgreeOn p (p + us.length) v w →
        program (streamAt w p) = concluded id r (streamAt w (p + us.length)) ∧
        Call ⟨w, p⟩ r ⟨w, p + us.length⟩ := by
  obtain ⟨r, us, s', hsplit, hread⟩ := exists_concluded (s := streamAt v p) (kind_endOf _)
  obtain ⟨-, rfl⟩ := h.append hsplit
  refine ⟨r, us, hsplit, fun w hw hagree => ?_⟩
  obtain ⟨hstream, hhead⟩ := streamAt_of_agreeOn h hsplit hw hagree
  have hsame : ∀ n, (streamAt w p).ahead.length < n →
      programWithin n (streamAt w p) = concluded .rejected r (streamAt w (p + us.length)) := by
    rw [hstream]
    exact hread _ (kind_endOf _) hhead
  exact ⟨program_eq_concluded (hsame _ (Nat.lt_succ_self _)),
    call_of_stream (hw.mono (Nat.le_add_right ..)) hstream hsame⟩

/-! ## Successive calls -/

theorem exists_terminated (ts : List Token) : ∃ us t, terminated ts = us ++ [t] ∧ t.kind = .eof := by
  unfold terminated
  split
  · next heof =>
    obtain ⟨t, hlast, ht⟩ := Option.map_eq_some_iff.1 heof
    obtain ⟨us, rfl⟩ := List.getLast?_eq_some_iff.1 hlast
    exact ⟨us, t, rfl, ht⟩
  · exact ⟨ts, _, rfl, rfl⟩

theorem exists_terminated_eq_append (ts : List Token) : ∃ rest, terminated ts = ts ++ rest := by
  unfold terminated
  split
  · exact ⟨[], (List.append_nil _).symm⟩
  · exact ⟨_, rfl⟩

theorem endsFrom_terminated (h : p < (terminated ts).length) : EndsFrom (terminated ts) p := by
  obtain ⟨us, t, heq, ht⟩ := exists_terminated ts
  rw [heq, List.length_append, List.length_singleton] at h
  refine ⟨t, ?_, ht⟩
  rw [heq, List.drop_append_of_le_length (by omega)]
  exact List.mem_append_right _ (List.mem_singleton_self t)

theorem endIndex_lt_length (ts : List Token) : endIndex (terminated ts) < (terminated ts).length := by
  obtain ⟨us, t, heq, ht⟩ := exists_terminated ts
  refine List.findIdx_lt_length_of_exists ⟨t, ?_, by simpa using ht⟩
  rw [heq]
  exact List.mem_append_right _ (List.mem_singleton_self t)

theorem endsFrom_of_agreeOn (hp : p ≤ q) (hq : q ≤ endIndex (terminated ts))
    (h : AgreeOn p q (terminated ts) (terminated w)) : EndsFrom (terminated w) q := by
  have hlt := Nat.lt_of_le_of_lt hq (endIndex_lt_length ts)
  have hget := (h q hp (Nat.le_refl _)).trans (List.getElem?_eq_getElem hlt)
  exact endsFrom_terminated (List.getElem?_eq_some_iff.1 hget).1

/-- The vector that a call leaves. -/
def leave (x : TokenVector) : TokenVector :=
  match programWithin x.tokens.length x with
  | .ok _ y => y
  | .error _ y => y

/-- The vector behind `n` calls on a token list. -/
def afterCalls (ts : List Token) (n : Nat) : TokenVector := leave^[n] (.ofTokens ts)

theorem afterCalls_succ (ts : List Token) (n : Nat) : afterCalls ts (n + 1) = leave (afterCalls ts n) :=
  Function.iterate_succ_apply' leave n _

theorem Call.leave {x y : TokenVector} {r : Except ParseError Program} (h : Call x r y) :
    Parser.leave x = y := by
  unfold Parser.leave
  rw [h.ends _ (Nat.le_refl _)]
  cases r <;> rfl

theorem Call.answer_eq {x y y' : TokenVector} {r r' : Except ParseError Program} {n : Nat}
    (h : Call x r y) (hn : x.tokens.length ≤ n) (hrun : programWithin n x = concluded .rejected r' y') :
    r = r' := by
  have hsame := (h.ends n hn).symm.trans hrun
  cases r <;> cases r' <;> cases hsame <;> rfl

/-- From a position up to the first end of file, a call stops at such a position again. -/
theorem exists_call_terminated (hp : p ≤ endIndex (terminated ts)) :
    ∃ (r : Except ParseError Program) (q : Nat), p ≤ q ∧ q ≤ endIndex (terminated ts) ∧
      ∀ w, AgreeOn p q (terminated ts) (terminated w) →
        program (streamAt (terminated w) p) = concluded id r (streamAt (terminated w) q) ∧
        Call ⟨terminated w, p⟩ r ⟨terminated w, q⟩ := by
  have hv := endIndex_lt_length ts
  obtain ⟨r, us, hsplit, hcall⟩ := exists_call (endsFrom_of_le_endIndex hv hp)
  have hq := add_length_le_endIndex hv hp hsplit
  exact ⟨r, p + us.length, Nat.le_add_right .., hq, fun w hw =>
    hcall _ (endsFrom_of_agreeOn (Nat.le_add_right ..) hq hw) hw⟩

/-- The calls come to the same positions on all lists with the same tokens up to the first end of file. -/
theorem exists_afterCalls (ts : List Token) (n : Nat) :
    ∃ p ≤ endIndex (terminated ts), ∀ w,
      AgreeOn 0 (endIndex (terminated ts)) (terminated ts) (terminated w) →
        afterCalls w n = ⟨terminated w, p⟩ := by
  induction n with
  | zero => exact ⟨0, Nat.zero_le _, fun _ _ => rfl⟩
  | succ n ih =>
    obtain ⟨p, hp, hbefore⟩ := ih
    obtain ⟨r, q, hpq, hq, hcall⟩ := exists_call_terminated hp
    refine ⟨q, hq, fun w hw => ?_⟩
    obtain ⟨-, hcall⟩ := hcall w fun i _ hi => hw i (Nat.zero_le _) (Nat.le_trans hi hq)
    rw [afterCalls_succ, hbefore w hw, hcall.leave]

/-- The tokens through the first end of file, and others behind it. -/
def throughEnd (ts rest : List Token) : List Token :=
  (terminated ts).take (endIndex (terminated ts) + 1) ++ rest

theorem agreeOn_throughEnd (ts rest : List Token) :
    AgreeOn 0 (endIndex (terminated ts)) (terminated ts) (terminated (throughEnd ts rest)) := by
  intro i _ hi
  have hend := endIndex_lt_length ts
  obtain ⟨ws, hws⟩ := exists_terminated_eq_append (throughEnd ts rest)
  have hlt : i < ((terminated ts).take (endIndex (terminated ts) + 1)).length := by
    rw [List.length_take]
    omega
  rw [hws, throughEnd, List.append_assoc, List.getElem?_append_left hlt,
    List.getElem?_take_of_lt (by omega)]

/-- However often the parser is called, each call ends, and stays on the tokens up to the first end of
file. -/
theorem calls_in_range (ts : List Token) :
    endIndex (terminated ts) < (terminated ts).length ∧
    (∀ p ≤ endIndex (terminated ts),
      (∃ t, TokenSource.peek? (TokenVector.mk (terminated ts) p) = some t) ∧
      TokenVector.advance ⟨terminated ts, p⟩ =
        ⟨terminated ts, min (p + 1) (endIndex (terminated ts))⟩) ∧
    afterCalls ts 0 = ⟨terminated ts, 0⟩ ∧
    ∀ n, ∃ (p q : Nat) (r : Except ParseError Program), p ≤ q ∧ q ≤ endIndex (terminated ts) ∧
      afterCalls ts n = ⟨terminated ts, p⟩ ∧ afterCalls ts (n + 1) = ⟨terminated ts, q⟩ ∧
      Call (afterCalls ts n) r (afterCalls ts (n + 1)) ∧
      program (streamAt (terminated ts) p) = concluded id r (streamAt (terminated ts) q) ∧
      (∀ w, AgreeOn p q (terminated ts) (terminated w) →
        Call ⟨terminated w, p⟩ r ⟨terminated w, q⟩) ∧
      ∀ rest, afterCalls (throughEnd ts rest) n = ⟨terminated (throughEnd ts rest), p⟩ ∧
        Call (afterCalls (throughEnd ts rest) n) r (afterCalls (throughEnd ts rest) (n + 1)) := by
  have hv := endIndex_lt_length ts
  refine ⟨hv, fun p hp => ⟨⟨_, (endsFrom_of_le_endIndex hv hp).head⟩, advance_of_le_endIndex hv hp⟩,
    rfl, fun n => ?_⟩
  obtain ⟨p, hp, hbefore⟩ := exists_afterCalls ts n
  obtain ⟨r, q, hpq, hq, hcall⟩ := exists_call_terminated hp
  -- a list with the same tokens up to the first end of file has them between `p` and `q` too
  have hcalls : ∀ w, AgreeOn 0 (endIndex (terminated ts)) (terminated ts) (terminated w) →
      afterCalls w n = ⟨terminated w, p⟩ ∧ afterCalls w (n + 1) = ⟨terminated w, q⟩ ∧
      Call (afterCalls w n) r (afterCalls w (n + 1)) := by
    intro w hw
    obtain ⟨-, hcall⟩ := hcall w fun i _ hi => hw i (Nat.zero_le _) (Nat.le_trans hi hq)
    have hnext : afterCalls w (n + 1) = ⟨terminated w, q⟩ := by
      rw [afterCalls_succ, hbefore w hw, hcall.leave]
    refine ⟨hbefore w hw, hnext, ?_⟩
    rw [hbefore w hw, hnext]
    exact hcall
  obtain ⟨hfrom, hto, hthis⟩ := hcalls ts fun _ _ _ => rfl
  refine ⟨p, q, r, hpq, hq, hfrom, hto, hthis, (hcall ts fun _ _ _ => rfl).1,
    fun w hw => (hcall w hw).2, fun rest => ?_⟩
  obtain ⟨hcut, -, hcutCall⟩ := hcalls _ (agreeOn_throughEnd ts rest)
  exact ⟨hcut, hcutCall⟩

/-- The least 64-bit number, as the text of a literal. -/
def leastLiteral : Token := ⟨.intLiteral, "-9223372036854775808", ⟨1, 13⟩⟩

/-- The tokens of `BEGIN x = -` and the least literal, those of `BEGIN END`, and a `;` behind the end of the
file. -/
def negatedLeast : List Token :=
  [⟨.kwBegin, "BEGIN", ⟨1, 1⟩⟩, ⟨.ident, "x", ⟨1, 7⟩⟩, ⟨.assign, "=", ⟨1, 9⟩⟩, ⟨.minus, "-", ⟨1, 11⟩⟩,
    leastLiteral, ⟨.kwBegin, "BEGIN", ⟨1, 34⟩⟩, ⟨.kwEnd, "END", ⟨1, 40⟩⟩, ⟨.eof, "", ⟨1, 43⟩⟩,
    ⟨.semicolon, ";", ⟨1, 43⟩⟩]

/-- The first call stops behind the literal, which has no negative in 64 bits. The second one starts there
and reads a program, and the tokens before that and behind the end of the file make no difference to it. -/
theorem calls_in_range_negatedLeast :
    (List.range 4).map (fun n => (afterCalls negatedLeast n).position) = [0, 5, 7, 7] ∧
      endIndex (terminated negatedLeast) = 7 ∧
      Call (.ofTokens negatedLeast) (.error (.literalOutOfRange leastLiteral (-9223372036854775808)))
        ⟨terminated negatedLeast, 5⟩ ∧
      ∀ (a b c d e : Token) (rest w : List Token),
        terminated (a :: b :: c :: d :: e :: (negatedLeast.drop 5).take 3 ++ rest) = w →
        Call ⟨w, 5⟩ (.ok ⟨[], [], []⟩) ⟨w, 7⟩ := by
  obtain ⟨-, -, -, hcalls⟩ := calls_in_range negatedLeast
  have hzero : afterCalls negatedLeast 0 = ⟨terminated negatedLeast, 0⟩ := rfl
  have hone : afterCalls negatedLeast 1 = ⟨terminated negatedLeast, 5⟩ := by rfl
  have htwo : afterCalls negatedLeast 2 = ⟨terminated negatedLeast, 7⟩ := by rfl
  refine ⟨by decide +kernel, by decide +kernel, ?_, ?_⟩
  · obtain ⟨-, -, r, -, -, -, -, hcall, -⟩ := hcalls 0
    rw [hzero, hone] at hcall
    have hrun : programWithin 10 (TokenVector.ofTokens negatedLeast) = concluded .rejected
        (.error (.literalOutOfRange leastLiteral (-9223372036854775808)))
        ⟨terminated negatedLeast, 5⟩ := by rfl
    obtain rfl := hcall.answer_eq (Nat.le_refl 10) hrun
    exact hcall
  · rintro a b c d e rest w rfl
    obtain ⟨p, q, r, -, -, hfrom, hto, hcall, -, hagree, -⟩ := hcalls 1
    rw [hone] at hfrom hcall
    rw [htwo] at hto hcall
    cases hfrom
    cases hto
    have hrun : programWithin 10 (TokenVector.mk (terminated negatedLeast) 5) =
        concluded .rejected (.ok ⟨[], [], []⟩) ⟨terminated negatedLeast, 7⟩ := by rfl
    obtain rfl := hcall.answer_eq (Nat.le_refl 10) hrun
    refine hagree _ fun i hi hi' => ?_
    obtain ⟨ws, hws⟩ := exists_terminated_eq_append
      (a :: b :: c :: d :: e :: (negatedLeast.drop 5).take 3 ++ rest)
    rw [hws]
    obtain rfl | rfl | rfl : i = 5 ∨ i = 6 ∨ i = 7 := by omega
    all_goals rfl

end Parser

end Lpl
