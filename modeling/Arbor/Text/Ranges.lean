/-!
Character classes given by ranges of code points.
-/

namespace Arbor.Text

def isBetween (low high : Nat) (c : Char) : Bool :=
  Nat.ble low c.toNat && Nat.ble c.toNat high

/-- Inclusive ranges of code points, in increasing order. -/
abbrev Ranges := List (Nat × Nat)

/-- Whether a character is in one of the ranges; those after it are not looked at. -/
def Ranges.contains : Ranges → Char → Bool
  | [], _ => false
  | (low, high) :: rest, c =>
    Nat.ble low c.toNat && (Nat.ble c.toNat high || Ranges.contains rest c)

end Arbor.Text
