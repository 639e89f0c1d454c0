import Lpl.Proofs.Layout.Relaid
import Lpl.Proofs.Parsing.Mirror
import Lpl.Proofs.Printing.RoundTrip

/-!
# Reading tokens without their locations

**Theorem (`program_unlocated`).** A program that is read from tokens without locations is the one that is
read from the tokens themselves, with its locations forgotten, and an error that comes up is the same but
for its location.

A stream without locations mirrors the stream itself (`TokenStream.forgetful`), so programs are read from
the two in the same way.
-/

namespace Lpl

/-- The error with its location forgotten. -/
def ParseError.unlocated : ParseError → ParseError
  | lexical e => lexical { e with location := .start }
  | unexpected found expected => unexpected found.unlocated expected
  | literalOutOfRange literal value => literalOutOfRange literal.unlocated value

namespace TokenStream

/-- The stream with all locations forgotten. -/
def unlocated (s : TokenStream) : TokenStream := ⟨s.ahead.map Token.unlocated, s.last.unlocated⟩

variable (s : TokenStream)

@[simp] theorem head_unlocated : s.unlocated.head = s.head.unlocated := by
  obtain ⟨_ | ⟨t, ts⟩, last⟩ := s <;> rfl

@[simp] theorem second_unlocated : s.unlocated.second = s.second.unlocated := by
  obtain ⟨_ | ⟨t, _ | ⟨u, ts⟩⟩, last⟩ := s <;> rfl

@[simp] theorem tail_unlocated : s.unlocated.tail = s.tail.unlocated := by
  obtain ⟨_ | ⟨t, ts⟩, last⟩ := s <;> rfl

@[simp] theorem length_unlocated : s.unlocated.ahead.length = s.ahead.length := List.length_map _

end TokenStream

/-- All locations forgotten, as something that is done to trees. -/
def Relocation.forget : Relocation where
  location _ := .start
  expr := Expr.unlocated
  stmt := Stmt.unlocated
  expr_eq e := by cases e <;> simp [Expr.unlocated, Expr.mapParts]
  stmt_eq s := by
    cases s with
    | switch e cs d l =>
      rw [Stmt.unlocated, SwitchCase.unlocatedAll_eq_map]
      rfl
    | _ => simp [Stmt.unlocated, Stmt.mapParts]

theorem Relocation.error_forget (e : ParseError) : Relocation.forget.error e = e.unlocated := by
  cases e <;> rfl

/-- A stream without locations mirrors the stream itself. -/
def TokenStream.forgetful : Mirror TokenStream TokenStream where
  toRelocation := .forget
  Related s t := t = s.unlocated
  peek?_eq h := by
    rw [h]
    exact congrArg some (head_unlocated _)
  second?_eq h _ _ := by
    rw [h]
    exact congrArg some (second_unlocated _)
  advance h := by
    rw [h]
    exact tail_unlocated _

/-- Locations decide nothing when a program is read. -/
theorem Parser.program_unlocated (s : TokenStream) :
    program s.unlocated =
      match program s with
      | .ok p s' => .ok p.unlocated s'.unlocated
      | .error e s' => .error e.unlocated s'.unlocated := by
  have hagree := corresponds_programWithin (M := TokenStream.forgetful) (s.ahead.length + 1)
    (show TokenStream.forgetful.Related s s.unlocated from rfl)
  unfold program
  rw [s.length_unlocated]
  generalize programWithin (s.ahead.length + 1) s = r at hagree ⊢
  generalize programWithin (s.ahead.length + 1) s.unlocated = r' at hagree ⊢
  cases hagree with
  | ok h =>
    cases h
    rfl
  | @error stop s' t h =>
    obtain rfl : t = s'.unlocated := h
    cases stop with
    | rejected e => exact congrArg (EStateM.Result.error · _) (Relocation.error_forget e)
    | outOfRange | exhausted =>
      exact congrArg (fun u => EStateM.Result.error (ParseError.unexpected u []) _) s'.head_unlocated

end Lpl
