import Arbor.Float64.Basic
import Arbor.Text.Digits

/-!
Decimal text of floating-point numbers.

A decimal is read by exact rounding: to the nearest number, a tie to the even one. A number is
written with the fewest digits that read back as it, and of several such the nearest; numbers from
`1e-4` on and below `1e16` are written positionally with at least one decimal, all others with an
exponent.
-/

namespace Arbor

/-- The number `digits * 10 ^ exponent`. -/
structure Decimal where
  digits : Nat
  exponent : Int
deriving DecidableEq

namespace Float64

/-! ## Powers -/

def twoTo (k : Nat) : Nat := Nat.pow 2 k

def tenTo (k : Nat) : Nat := Nat.pow 10 k

/-- The number of different fractions: the magnitudes of one exponent. -/
def fractionCount : Nat := 0x10000000000000

/-! ## Reading -/

/-- The quotient rounded to the nearest number, a tie to the even one. -/
def roundDiv (num den : Nat) : Nat :=
  let q := num / den
  let r := num % den
  if den < 2 * r ∨ (2 * r = den ∧ q % 2 = 1) then q + 1 else q

/-- The quotient `num / den` times `2 ^ (-q)`, rounded. -/
def scaledRound (num den : Nat) (q : Int) : Nat :=
  roundDiv (num * twoTo (-q).toNat) (den * twoTo q.toNat)

/-- The greatest `e` with `2 ^ e ≤ num / den`, for positive `num` and `den`. -/
def binaryExponent (num den : Nat) : Int :=
  let e : Int := (num.log2 : Int) - (den.log2 : Int)
  if den * twoTo e.toNat ≤ num * twoTo (-e).toNat then e else e - 1

/-- The magnitude of the number nearest to `num / den`. -/
def nearestMagnitude (num den : Nat) : Nat :=
  if num = 0 then 0
  else
    let e := binaryExponent num den
    let q : Int := if e - 52 < -1074 then -1074 else e - 52
    let m := (q + 1074).toNat * fractionCount + scaledRound num den q
    if infinityMagnitude < m then infinityMagnitude else m

/-- The magnitude of the number nearest to a decimal. Decimals far outside the range of numbers are
told by their length, so that no huge power is computed. -/
def decimalMagnitude (d : Decimal) : Nat :=
  let top : Int := (Nat.toDigits 10 d.digits).length + d.exponent
  if d.digits = 0 then 0
  else if 310 < top then infinityMagnitude
  else if top < -330 then 0
  else nearestMagnitude (d.digits * tenTo d.exponent.toNat) (tenTo (-d.exponent).toNat)

def ofMagnitude (negative : Bool) (m : Nat) : Float64 :=
  ofBits (UInt64.ofNat (if negative then signWeight + m else m))

def ofDecimal (negative : Bool) (d : Decimal) : Float64 :=
  ofMagnitude negative (decimalMagnitude d)

/-! ## The fewest digits -/

/-- The mantissa of a finite magnitude. -/
def mantissa (m : Nat) : Nat :=
  if m / fractionCount = 0 then m else fractionCount + m % fractionCount

/-- The exponent of a finite magnitude: it stands for `mantissa m * 2 ^ exponent m`. -/
def exponent (m : Nat) : Int :=
  if m / fractionCount = 0 then -1074 else (m / fractionCount : Nat) - 1075

def exactDecimal (m : Nat) : Decimal :=
  let q := exponent m
  if 0 ≤ q then ⟨mantissa m * twoTo q.toNat, 0⟩ else ⟨mantissa m * Nat.pow 5 (-q).toNat, q⟩

/-- Tries the multiples of `10 ^ k` next to `num / den`, then those of `10 ^ (k - 1)`, and so on;
the first that reads back as the magnitude `m` wins, of two the nearer, and the upper one on a
tie. -/
def shortestFrom (m num den : Nat) : Nat → Int → Option Decimal
  | 0, _ => none
  | steps + 1, k =>
    let n := num * tenTo (-k).toNat
    let d := den * tenTo k.toNat
    let low : Decimal := ⟨n / d, k⟩
    let high : Decimal := ⟨n / d + 1, k⟩
    match decimalMagnitude low == m, decimalMagnitude high == m with
    | true, true => some (if 2 * (n % d) < d then low else high)
    | true, false => some low
    | false, true => some high
    | false, false => shortestFrom m num den steps (k - 1)

/-- The shortest decimal that reads back as a finite positive magnitude. -/
def shortestDecimal (m : Nat) : Decimal :=
  let q := exponent m
  let num := mantissa m * twoTo q.toNat
  let den := twoTo (-q).toNat
  let top : Int := (binaryExponent num den + 1) * 30103 / 100000 + 1
  (shortestFrom m num den 20 top).getD (exactDecimal m)

/-! ## Writing -/

/-- Positional notation, with at least one digit on either side of the point; `point` digits stand
before it. -/
def positional (digits : List Char) (point : Int) : List Char :=
  if point ≤ 0 then '0' :: '.' :: (List.replicate (-point).toNat '0' ++ digits)
  else if point < digits.length then
    digits.take point.toNat ++ '.' :: digits.drop point.toNat
  else digits ++ List.replicate (point.toNat - digits.length) '0' ++ ['.', '0']

/-- One digit, the others after a point if there are any, and the exponent. -/
def scientific (digits : List Char) (exp : Int) : List Char :=
  match digits with
  | [] => []
  | [d] => d :: 'e' :: Text.intChars exp
  | d :: rest => d :: '.' :: (rest ++ 'e' :: Text.intChars exp)

def decimalChars (d : Decimal) : List Char :=
  let digits := Nat.toDigits 10 d.digits
  let point : Int := digits.length + d.exponent
  if -4 < point ∧ point ≤ 16 then positional digits point else scientific digits (point - 1)

def magnitudeChars (m : Nat) : List Char :=
  if m = 0 then ['0', '.', '0']
  else if m = infinityMagnitude then ['i', 'n', 'f']
  else decimalChars (shortestDecimal m)

def chars (x : Float64) : List Char :=
  if x.isNaN then ['N', 'a', 'N']
  else if x.isNegative then '-' :: magnitudeChars (magnitude x.bits)
  else magnitudeChars (magnitude x.bits)

end Float64

end Arbor
