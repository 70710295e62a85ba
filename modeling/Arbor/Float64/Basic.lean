/-!
Floating-point numbers as IEEE-754 binary64 patterns, made fit for equality: all NaNs are one
number and negative zero is zero. The order puts NaN above everything else.
-/

namespace Arbor

namespace Float64

/-- The pattern of positive infinity; the magnitudes above it are NaNs. -/
def infinityMagnitude : Nat := 0x7ff0000000000000

/-- The weight of the sign, which stands above the magnitude. -/
def signWeight : Nat := 0x8000000000000000

/-- Exponent and fraction of a pattern, as one number. -/
def magnitude (bits : UInt64) : Nat :=
  bits.toNat % signWeight

def isNegativeBits (bits : UInt64) : Bool :=
  Nat.ble signWeight bits.toNat

def isNaNBits (bits : UInt64) : Bool :=
  Nat.blt infinityMagnitude (magnitude bits)

/-- The pattern that stands for all patterns of the same number. -/
def canonicalBits (bits : UInt64) : UInt64 :=
  if isNaNBits bits then 0x7ff8000000000000
  else if magnitude bits = 0 then 0
  else bits

theorem canonicalBits_idem (bits : UInt64) :
    canonicalBits (canonicalBits bits) = canonicalBits bits := by
  unfold canonicalBits
  split
  · rfl
  · split
    · rfl
    · simp_all

end Float64

/-- A floating-point number, held by its canonical pattern. -/
structure Float64 where
  bits : UInt64
  canonical : Float64.canonicalBits bits = bits
deriving DecidableEq

namespace Float64

def ofBits (bits : UInt64) : Float64 :=
  ⟨canonicalBits bits, canonicalBits_idem bits⟩

def isNaN (x : Float64) : Bool :=
  isNaNBits x.bits

def isNegative (x : Float64) : Bool :=
  isNegativeBits x.bits

def nan : Float64 := ofBits 0x7ff8000000000000

def infinity : Float64 := ofBits 0x7ff0000000000000

def negInfinity : Float64 := ofBits 0xfff0000000000000

/-- A number that grows with the value: the signed magnitude. -/
def rank (x : Float64) : Int :=
  if x.isNegative then -(magnitude x.bits : Int) else magnitude x.bits

/-- Numeric equality, with NaN equal to itself. -/
def same (x y : Float64) : Bool :=
  (x.isNaN && y.isNaN) || (!x.isNaN && !y.isNaN && x.rank == y.rank)

/-- Numeric order, with NaN equal to itself and above every other number. -/
def cmp (x y : Float64) : Ordering :=
  match x.isNaN, y.isNaN with
  | true, true => .eq
  | true, false => .gt
  | false, true => .lt
  | false, false =>
    if x.rank < y.rank then .lt else if x.rank = y.rank then .eq else .gt

end Float64

end Arbor
