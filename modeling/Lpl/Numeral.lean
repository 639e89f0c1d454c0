/-!
# Signed decimal numerals

How a whole number is read from a text: an optional sign, `+` or `-`, then one or more ASCII
digits and nothing else, with a value in the range of a two's complement integer.
-/

namespace Lpl.Numeral

/-- The range of a two's complement integer, half of it below zero. -/
def Within (half : Nat) (n : Int) : Prop := -(half : Int) ≤ n ∧ n < half

instance (half : Nat) (n : Int) : Decidable (Within half n) := by
  unfold Within; infer_instance

/-- Half the range of 32 bits. -/
def half32 : Nat := 2147483648

/-- Half the range of 64 bits. -/
def half64 : Nat := 9223372036854775808

/-- The number that a run of digits spells. -/
def decimal (digits : List Char) : Nat :=
  digits.foldl (fun n d => 10 * n + (d.toNat - '0'.toNat)) 0

/-- The value of one or more ASCII digits. -/
def magnitude? (digits : List Char) : Option Nat :=
  if digits ≠ [] ∧ digits.all Char.isDigit then some (decimal digits) else none

/-- The value of a signed numeral, whatever its size. -/
def signed? : List Char → Option Int
  | '-' :: digits => (magnitude? digits).map fun n => -(n : Int)
  | '+' :: digits => (magnitude? digits).map fun n => (n : Int)
  | digits => (magnitude? digits).map fun n => (n : Int)

/-- Reads a numeral whose value is in range. -/
def read? (half : Nat) (text : String) : Option Int :=
  (signed? text.toList).filter fun n => decide (Within half n)

/-- The negative of a 64-bit number, in 64 bits: the least of them has none and stays. -/
def negate64 (n : Int) : Int := (-Int64.ofInt n).toInt

end Lpl.Numeral
