import Lpl.Location

/-!
# Compile errors

What can be wrong with a program that was read: a name that is not declared, a declaration that
is not the only one, a construct in the wrong place, or storage that has no place. Where an error
is raised without a location the construct around it attaches its own; the first one stays.
-/

namespace Lpl

namespace CompileError

/-- What an undeclared name was to stand for. -/
inductive NameKind where
  | var | method
deriving DecidableEq, Repr, Inhabited

/-- Where a name is declared twice. -/
inductive Region where
  | globals
  | methods
  | params (method : String)
  | locals (method : String)
  /-- A local of the method that is one of its parameters too. -/
  | alreadyParam (method : String)
  /-- A parameter or local of the method that has a global's name. -/
  | hidesGlobal (method : String)
  | switchCases
  /-- A region that a caller describes. -/
  | other (description : String)
deriving DecidableEq, Repr

/-- A construct that the active method does not allow. -/
inductive Misplacement where
  | returnOutsideMethod
  | nestedEntry (method active : String)
  | exitOutsideMethod
  | localsOutsideMethod
  | frameOutsideMethod
  /-- A misplacement that a caller describes. -/
  | other (description : String)
deriving DecidableEq, Repr

/-- Storage that cannot be laid out. -/
inductive LayoutFault where
  | wordSize (size : Int)
  /-- The storage of the named variable is out of a word's range. -/
  | slot (name : String) (wordSize : Nat)
  /-- A fault that a caller describes. -/
  | other (description : String)
deriving DecidableEq, Repr

end CompileError

/-- Why a program cannot be compiled. -/
inductive CompileError where
  | undeclared (kind : CompileError.NameKind) (name : String) (location : Option Location)
  | duplicate (name : String) (region : CompileError.Region) (location : Option Location)
  | misplaced (cause : CompileError.Misplacement) (location : Option Location)
  | layout (fault : CompileError.LayoutFault)
deriving DecidableEq, Repr

namespace CompileError

/-- The kind of name in words. -/
def NameKind.text : NameKind → String
  | var => "variable"
  | method => "method"

/-- The region in words. -/
def Region.text : Region → String
  | globals => "global scope"
  | methods => "the method namespace"
  | params m => "the parameters of '" ++ m ++ "'"
  | locals m => "the locals of '" ++ m ++ "'"
  | alreadyParam m => "method '" ++ m ++ "', where it is already a parameter"
  | hidesGlobal m => "method '" ++ m ++ "', where it would hide a global"
  | switchCases => "one SWITCH statement"
  | other description => description

/-- The misplacement in words. -/
def Misplacement.text : Misplacement → String
  | returnOutsideMethod => "RETURN outside of any method body"
  | nestedEntry m active =>
    "cannot enter method '" ++ m ++ "' while generating code for '" ++ active ++ "'"
  | exitOutsideMethod => "exit from a method while no method is active"
  | localsOutsideMethod => "locals requested outside any method"
  | frameOutsideMethod => "a frame requested outside any method"
  | other description => description

/-- The fault in words. -/
def LayoutFault.text : LayoutFault → String
  | wordSize n => "word size " ++ toString n ++ " is outside 1..=64"
  | slot x w => "the slot of '" ++ x ++ "' is out of range for word size " ++ toString w
  | other description => description

/-- Where the error is, if that is known. A fault of the whole layout is nowhere. -/
def location? : CompileError → Option Location
  | undeclared _ _ l | duplicate _ _ l | misplaced _ l => l
  | layout _ => none

/-- The error at location `l`, unless it has a location already. -/
def locatedAt (l : Location) : CompileError → CompileError
  | undeclared k x l' => undeclared k x (some (l'.getD l))
  | duplicate x r l' => duplicate x r (some (l'.getD l))
  | misplaced c l' => misplaced c (some (l'.getD l))
  | layout f => layout f

/-- The error in words, without its location. -/
def text : CompileError → String
  | undeclared k x _ => "Undeclared " ++ k.text ++ " '" ++ x ++ "'"
  | duplicate x r _ => "Duplicate declaration of '" ++ x ++ "' in " ++ r.text
  | misplaced c _ => "Invalid method context: " ++ c.text
  | layout f => "Invalid storage layout: " ++ f.text

/-- The whole message. -/
def message (e : CompileError) : String :=
  match e.location? with
  | some l => e.text ++ " at " ++ l.text
  | none => e.text

end CompileError

end Lpl
