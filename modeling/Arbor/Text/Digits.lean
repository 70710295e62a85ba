/-!
Decimal digits: the text of integers, and the value of a run of digits.
-/

namespace Arbor.Text

def intChars (i : Int) : List Char :=
  if i < 0 then '-' :: Nat.toDigits 10 i.natAbs else Nat.toDigits 10 i.natAbs

def isDigit (c : Char) : Bool :=
  Nat.ble 48 c.toNat && Nat.ble c.toNat 57

def digitsValue (digits : List Char) : Nat :=
  digits.foldl (fun n c => 10 * n + (c.toNat - 48)) 0

end Arbor.Text
