import Arbor.Float64.Basic

/-!
# Comparison of floating-point numbers

A pattern is a sign and a magnitude. Canonical patterns leave no choice: there is one of NaN, and
zero has no sign. So numbers that compare equal have one pattern (`Float64.same_iff`).
-/

namespace Arbor

namespace Float64

theorem toNat_bits (bits : UInt64) :
    bits.toNat = (if isNegativeBits bits then signWeight else 0) + magnitude bits := by
  have bound := bits.toNat_lt
  unfold magnitude isNegativeBits signWeight
  split
  · rename_i negative
    rw [Nat.ble_eq] at negative
    omega
  · rename_i positive
    rw [Nat.ble_eq] at positive
    omega

variable {x y : Float64}

theorem ext_bits (h : x.bits = y.bits) : x = y := by
  cases x
  cases y
  cases h
  rfl

theorem bits_of_isNaN (h : x.isNaN = true) : x.bits = 0x7ff8000000000000 := by
  have canonical := x.canonical
  rw [canonicalBits, ← isNaN, if_pos h] at canonical
  exact canonical.symm

/-- Zero has no sign. -/
theorem not_isNegative_of_magnitude (number : x.isNaN = false) (zero : magnitude x.bits = 0) :
    x.isNegative = false := by
  have canonical := x.canonical
  rw [canonicalBits, ← isNaN, number, if_neg Bool.false_ne_true, if_pos zero] at canonical
  rw [isNegative, ← canonical]
  rfl

theorem bits_eq_of_sign (sign : x.isNegative = y.isNegative)
    (size : magnitude x.bits = magnitude y.bits) : x = y := by
  apply ext_bits
  apply UInt64.toNat_inj.mp
  rw [toNat_bits, toNat_bits, ← isNegative, ← isNegative, sign, size]

theorem eq_of_rank (hx : x.isNaN = false) (hy : y.isNaN = false) (h : x.rank = y.rank) : x = y := by
  unfold rank at h
  cases sx : x.isNegative <;> cases sy : y.isNegative <;>
    simp only [sx, sy, reduceIte, Bool.false_eq_true] at h
  · exact bits_eq_of_sign (sx.trans sy.symm) (by omega)
  · -- A number that is not negative equals one that is only if both are zero.
    rw [not_isNegative_of_magnitude hy (by omega)] at sy
    cases sy
  · rw [not_isNegative_of_magnitude hx (by omega)] at sx
    cases sx
  · exact bits_eq_of_sign (sx.trans sy.symm) (by omega)

theorem same_iff : x.same y = true ↔ x = y := by
  constructor
  · intro h
    cases hx : x.isNaN <;> cases hy : y.isNaN <;> simp [same, hx, hy] at h
    · exact eq_of_rank hx hy h
    · exact ext_bits ((bits_of_isNaN hx).trans (bits_of_isNaN hy).symm)
  · rintro rfl
    cases hx : x.isNaN <;> simp [same, hx]

end Float64

end Arbor
