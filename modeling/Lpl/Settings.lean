/-!
# Settings of a compilation

The word size of the target machine in bytes, and what to do with a parameter or local that has
a global's name. The word size is checked where it is used, when storage is laid out.
-/

namespace Lpl

/-- What happens to a parameter or local variable with the name of a global. -/
inductive Shadowing where
  /-- It hides the global without a word. -/
  | allow
  /-- It hides the global, with a warning. -/
  | warn
  /-- It is an error. -/
  | reject
deriving DecidableEq, Repr, Inhabited

/-- A name that is no policy. -/
structure UnknownShadowing where
  name : String
deriving DecidableEq, Repr

/-- The error in words. -/
def UnknownShadowing.message (e : UnknownShadowing) : String :=
  "unknown shadowing policy '" ++ e.name ++ "' (expected allow, warn or reject)"

namespace Shadowing

/-- The name of a policy. -/
def name : Shadowing → String
  | allow => "allow"
  | warn => "warn"
  | reject => "reject"

/-- The policy of a name. -/
def ofName : String → Except UnknownShadowing Shadowing
  | "allow" => .ok allow
  | "warn" => .ok warn
  | "reject" => .ok reject
  | other => .error ⟨other⟩

@[simp] theorem ofName_name (s : Shadowing) : ofName s.name = .ok s := by
  cases s <;> rfl

end Shadowing

/-- The settings of a compilation. -/
structure Settings where
  wordSize : Int := 4
  shadowing : Shadowing := .warn
deriving DecidableEq, Repr, Inhabited

/-- The largest word size. -/
def Settings.maxWordSize : Nat := 64

end Lpl
