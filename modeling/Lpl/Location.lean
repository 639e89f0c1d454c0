/-!
# Source locations

A location is a line and a column, both counted from 1 in a text. Reading a character moves
the location: a newline goes to the first column of the next line, and every other character
(a tab or a carriage return too) is one column wide.
-/

namespace Lpl

/-- A line and a column of a source text. -/
structure Location where
  line : Nat
  column : Nat
deriving DecidableEq, Repr, Inhabited

namespace Location

/-- Where a text starts. -/
def start : Location := ⟨1, 1⟩

/-- The location just past the character `c` read at `l`. -/
def after (l : Location) (c : Char) : Location :=
  if c = '\n' then ⟨l.line + 1, 1⟩ else ⟨l.line, l.column + 1⟩

/-- The location just past the characters `cs` read from `l` on. -/
def afterAll (l : Location) (cs : List Char) : Location :=
  cs.foldl after l

/-- A location in words, as error messages give it. -/
def text (l : Location) : String :=
  s!"line {l.line}, column {l.column}"

@[simp] theorem afterAll_nil (l : Location) : l.afterAll [] = l := rfl

@[simp] theorem afterAll_cons (l : Location) (c : Char) (cs : List Char) :
    l.afterAll (c :: cs) = (l.after c).afterAll cs := rfl

@[simp] theorem afterAll_append (l : Location) (cs ds : List Char) :
    l.afterAll (cs ++ ds) = (l.afterAll cs).afterAll ds := by
  simp [afterAll]

end Location

end Lpl
