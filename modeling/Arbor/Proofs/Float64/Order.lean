import Mathlib
import Arbor.Float64.Decimal
import Arbor.Proofs.Float64.Comparison

/-!
# The order of floating-point numbers

The sign, exponent and fraction of a pattern give the point of the extended line that it stands for,
unless it is a NaN (`number?`). Numbers are compared by their signed magnitudes, which grow with the
points (`onLine_strictMonoOn`), so the comparison is that of the points, and NaN comes after all of
them. Together with `same_iff` this makes it a total order of the canonical patterns.
-/

namespace Arbor.Float64

/-! ## What a pattern stands for -/

def signField (bits : UInt64) : Bool := bits.toNat.testBit 63

/-- The exponent, with the bias that makes it positive. -/
def exponentField (bits : UInt64) : Nat := bits.toNat / 2 ^ 52 % 2 ^ 11

def fractionField (bits : UInt64) : Nat := bits.toNat % 2 ^ 52

/-- Rational numbers and the two infinities. -/
abbrev Extended := WithBot (WithTop ℚ)

/-- The absolute value of a finite pattern. The numbers of the least exponent have no leading
one. -/
def absoluteValue (bits : UInt64) : ℚ :=
  if exponentField bits = 0 then fractionField bits * 2 ^ (-1074 : ℤ)
  else (2 ^ 52 + fractionField bits) * 2 ^ ((exponentField bits : ℤ) - 1075)

/-- The number that a pattern stands for; NaNs stand for none. -/
def number? (bits : UInt64) : Option Extended :=
  if exponentField bits = 2047 then
    if fractionField bits = 0 then some (if signField bits then ⊥ else ⊤) else none
  else
    some (((if signField bits then -absoluteValue bits else absoluteValue bits : ℚ) : WithTop ℚ) :
      Extended)

theorem signField_eq (bits : UInt64) : signField bits = isNegativeBits bits := by
  have bound := bits.toNat_lt
  rw [signField, isNegativeBits, Bool.eq_iff_iff, Nat.ble_eq, Nat.testBit_eq_decide_div_mod_eq,
    decide_eq_true_iff, signWeight]
  omega

theorem exponentField_eq (bits : UInt64) : exponentField bits = magnitude bits / fractionCount := by
  unfold exponentField magnitude signWeight fractionCount
  omega

theorem fractionField_eq (bits : UInt64) : fractionField bits = magnitude bits % fractionCount := by
  unfold fractionField magnitude signWeight fractionCount
  omega

theorem exponentField_lt (bits : UInt64) : exponentField bits < 2 ^ 11 :=
  Nat.mod_lt _ (by decide)

theorem fractionField_lt (bits : UInt64) : fractionField bits < 2 ^ 52 :=
  Nat.mod_lt _ (by decide)

theorem magnitude_eq_fields (bits : UInt64) :
    magnitude bits = exponentField bits * fractionCount + fractionField bits := by
  rw [exponentField_eq, fractionField_eq, Nat.div_add_mod']

/-- The patterns of the greatest exponent are the infinities and, with a fraction, the NaNs. -/
theorem isNaNBits_iff {bits : UInt64} :
    isNaNBits bits = true ↔ exponentField bits = 2047 ∧ fractionField bits ≠ 0 := by
  have exponent := exponentField_lt bits
  have fraction := fractionField_lt bits
  rw [isNaNBits, Nat.blt_eq, magnitude_eq_fields]
  unfold infinityMagnitude fractionCount
  omega

/-! ## Magnitudes -/

/-- What a finite magnitude stands for. -/
def size (m : Nat) : ℚ := mantissa m * 2 ^ exponent m

theorem absoluteValue_eq (bits : UInt64) : absoluteValue bits = size (magnitude bits) := by
  rw [absoluteValue, exponentField_eq, fractionField_eq, size, mantissa, exponent]
  split
  · rename_i least
    have small : magnitude bits < fractionCount := by
      rwa [Nat.div_eq_zero_iff_lt (by decide)] at least
    rw [Nat.mod_eq_of_lt small]
  · push_cast
    norm_num [fractionCount]

theorem size_zero : size 0 = 0 := by
  rw [size]
  norm_num [mantissa, fractionCount]

/-- The next magnitude has the next mantissa, or half of it where the exponent goes up. -/
theorem mantissa_succ (m : Nat) :
    (exponent (m + 1) = exponent m ∧ mantissa (m + 1) = mantissa m + 1) ∨
      (exponent (m + 1) = exponent m + 1 ∧ 2 * mantissa (m + 1) = mantissa m + 1) := by
  unfold exponent mantissa fractionCount
  split <;> split <;> omega

/-- The next magnitude stands for one more in the last place. -/
theorem size_succ (m : Nat) : size (m + 1) = size m + 2 ^ exponent m := by
  obtain ⟨same, next⟩ | ⟨up, half⟩ := mantissa_succ m
  · rw [size, size, same, next, Nat.cast_succ]
    ring
  · have half : (2 : ℚ) * mantissa (m + 1) = mantissa m + 1 := by exact_mod_cast half
    calc size (m + 1) = 2 * mantissa (m + 1) * 2 ^ exponent m := by
          rw [size, up, zpow_add_one₀ two_ne_zero]
          ring
      _ = size m + 2 ^ exponent m := by
          rw [half, size]
          ring

theorem size_strictMono : StrictMono size := by
  apply strictMono_nat_of_lt_succ
  intro m
  have : (0 : ℚ) < 2 ^ exponent m := by positivity
  rw [size_succ]
  linarith

/-! ## Signed magnitudes -/

def signedSize (r : ℤ) : ℚ := if r < 0 then -size r.natAbs else size r.natAbs

theorem signedSize_strictMono : StrictMono signedSize := by
  intro r s less
  have positive {m : Nat} (h : 0 < m) : 0 < size m := size_zero ▸ size_strictMono h
  have nonneg (m : Nat) : 0 ≤ size m := size_zero ▸ size_strictMono.monotone m.zero_le
  unfold signedSize
  split <;> split
  · -- Of two negative numbers the one with the larger magnitude is less.
    exact neg_lt_neg (size_strictMono (by omega))
  · have := positive (m := r.natAbs) (by omega)
    have := nonneg s.natAbs
    linarith
  · omega
  · exact size_strictMono (by omega)

/-- The point of a signed magnitude on the extended line. -/
def onLine (r : ℤ) : Extended :=
  if r = infinityMagnitude then ⊤
  else if r = -infinityMagnitude then ⊥
  else ((signedSize r : WithTop ℚ) : Extended)

def lineRange : Set ℤ := Set.Icc (-infinityMagnitude) infinityMagnitude

theorem onLine_strictMonoOn : StrictMonoOn onLine lineRange := by
  intro r hr s hs less
  obtain ⟨low, -⟩ := hr
  obtain ⟨-, high⟩ := hs
  have below : r ≠ infinityMagnitude := by omega
  have above : s ≠ -infinityMagnitude := by omega
  rw [onLine, onLine, if_neg below, if_neg above]
  split <;> split
  · exact bot_lt_top
  · exact WithBot.bot_lt_coe _
  · exact WithBot.coe_lt_coe.mpr (WithTop.coe_lt_top _)
  · exact WithBot.coe_lt_coe.mpr (WithTop.coe_lt_coe.mpr (signedSize_strictMono less))

def signedMagnitude (bits : UInt64) : ℤ :=
  if isNegativeBits bits then -(magnitude bits : ℤ) else magnitude bits

theorem signedMagnitude_mem {bits : UInt64} (number : isNaNBits bits = false) :
    signedMagnitude bits ∈ lineRange := by
  have bound : magnitude bits ≤ infinityMagnitude := by
    rw [isNaNBits, Bool.eq_false_iff, Ne, Nat.blt_eq] at number
    omega
  unfold signedMagnitude lineRange
  rw [Set.mem_Icc]
  split <;> omega

theorem signedSize_neg (m : Nat) : signedSize (-m) = -size m := by
  rcases Nat.eq_zero_or_pos m with rfl | positive
  · -- Zero is the same with either sign.
    rw [signedSize, if_neg (by omega)]
    norm_num [size_zero]
  · rw [signedSize, if_pos (by omega), Int.natAbs_neg, Int.natAbs_natCast]

theorem signedSize_natCast (m : Nat) : signedSize m = size m := by
  rw [signedSize, if_neg (by omega), Int.natAbs_natCast]

theorem signedSize_signedMagnitude (bits : UInt64) :
    signedSize (signedMagnitude bits) =
      if isNegativeBits bits then -size (magnitude bits) else size (magnitude bits) := by
  unfold signedMagnitude
  split
  · exact signedSize_neg _
  · exact signedSize_natCast _

theorem onLine_infinite {bits : UInt64} (h : magnitude bits = infinityMagnitude) :
    onLine (signedMagnitude bits) = if isNegativeBits bits then ⊥ else ⊤ := by
  rw [signedMagnitude, h]
  split
  · rfl
  · rw [onLine, if_pos rfl]

theorem onLine_finite {bits : UInt64} (h : magnitude bits < infinityMagnitude) :
    onLine (signedMagnitude bits) =
      (((if isNegativeBits bits then -size (magnitude bits) else size (magnitude bits) : ℚ) :
        WithTop ℚ) : Extended) := by
  have inside : signedMagnitude bits ≠ infinityMagnitude ∧
      signedMagnitude bits ≠ -infinityMagnitude := by
    unfold signedMagnitude
    split <;> omega
  rw [onLine, if_neg inside.1, if_neg inside.2, signedSize_signedMagnitude]

theorem number?_eq (bits : UInt64) :
    number? bits = if isNaNBits bits then none else some (onLine (signedMagnitude bits)) := by
  have parts := magnitude_eq_fields bits
  unfold fractionCount at parts
  rw [number?, signField_eq, absoluteValue_eq]
  by_cases nan : isNaNBits bits = true
  · rw [if_pos nan, if_pos (isNaNBits_iff.mp nan).1, if_neg (isNaNBits_iff.mp nan).2]
  rw [if_neg nan]
  rw [isNaNBits_iff, not_and_not_right] at nan
  split
  · rename_i last
    rw [if_pos (nan last), onLine_infinite]
    rw [parts, last, nan last]
    rfl
  · rename_i inside
    have exponent := exponentField_lt bits
    have fraction := fractionField_lt bits
    rw [onLine_finite]
    unfold infinityMagnitude
    omega

theorem number?_eq_none {bits : UInt64} : number? bits = none ↔ isNaNBits bits = true := by
  rw [number?_eq]
  split <;> simp_all

theorem number?_canonicalBits (bits : UInt64) : number? (canonicalBits bits) = number? bits := by
  unfold canonicalBits
  split
  · rename_i nan
    rw [number?_eq_none.mpr nan]
    exact number?_eq_none.mpr rfl
  split
  · rename_i number zero
    have unsigned : signedMagnitude bits = 0 := by
      unfold signedMagnitude
      split <;> omega
    rw [number?_eq, number?_eq, if_neg number, unsigned]
    rfl
  · rfl

theorem magnitude_eq_zero {bits : UInt64} :
    magnitude bits = 0 ↔ bits = 0 ∨ bits = 0x8000000000000000 := by
  have parts := toNat_bits bits
  constructor
  · intro zero
    rw [zero] at parts
    split at parts
    · exact .inr (UInt64.toNat_inj.mp parts)
    · exact .inl (UInt64.toNat_inj.mp parts)
  · rintro (rfl | rfl) <;> rfl

/-- Only NaNs and negative zero are not canonical. -/
theorem canonicalBits_eq (bits : UInt64) :
    canonicalBits bits =
      if number? bits = none then 0x7ff8000000000000
      else if bits = 0x8000000000000000 then 0
      else bits := by
  simp only [canonicalBits, number?_eq_none, magnitude_eq_zero]
  split
  · rfl
  by_cases zero : bits = 0
  · rw [zero]
    rfl
  · simp only [zero, false_or]

/-! ## Comparison -/

variable {x y : Float64}

theorem cmp_eq_compare_rank (hx : x.isNaN = false) (hy : y.isNaN = false) :
    x.cmp y = compare x.rank y.rank := by
  simp only [cmp, hx, hy]
  rfl

/-- Numbers are compared as points of the extended line. -/
theorem cmp_eq_compare_number {p q : Extended} (hx : number? x.bits = some p)
    (hy : number? y.bits = some q) : x.cmp y = compare p q := by
  have point {x : Float64} {p : Extended} (h : number? x.bits = some p) :
      x.isNaN = false ∧ onLine x.rank = p := by
    rw [number?_eq, ← isNaN] at h
    split at h
    · cases h
    · exact ⟨Bool.eq_false_iff.mpr ‹_›, Option.some.inj h⟩
  obtain ⟨numberX, rfl⟩ := point hx
  obtain ⟨numberY, rfl⟩ := point hy
  rw [cmp_eq_compare_rank numberX numberY, ← cmp_eq_compare, ← cmp_eq_compare]
  have mono := onLine_strictMonoOn.cmp_map_eq (signedMagnitude_mem numberX)
    (signedMagnitude_mem numberY)
  exact mono.symm

/-- The place of a number in the order: NaN comes last. -/
def place (x : Float64) : WithTop ℤ := if x.isNaN then ⊤ else x.rank

theorem cmp_eq_compare_place (x y : Float64) : x.cmp y = compare x.place y.place := by
  unfold place
  cases hx : x.isNaN <;> cases hy : y.isNaN
  · rw [cmp_eq_compare_rank hx hy, ← cmp_eq_compare, ← cmp_eq_compare]
    exact (WithTop.coe_strictMono.cmp_map_eq _ _).symm
  · rw [cmp, hx, hy, eq_comm, compare_lt_iff_lt]
    exact WithTop.coe_lt_top _
  · rw [cmp, hx, hy, eq_comm, compare_gt_iff_gt]
    exact WithTop.coe_lt_top _
  · rw [cmp, hx, hy, eq_comm, compare_eq_iff_eq]
    rfl

theorem place_injective : Function.Injective place := by
  intro x y h
  unfold place at h
  cases hx : x.isNaN <;> cases hy : y.isNaN <;> simp only [hx, hy, reduceIte] at h
  · exact eq_of_rank hx hy (WithTop.coe_injective h)
  · cases h
  · cases h
  · exact ext_bits ((bits_of_isNaN hx).trans (bits_of_isNaN hy).symm)

theorem cmp_eq_iff : x.cmp y = .eq ↔ x = y := by
  rw [cmp_eq_compare_place, compare_eq_iff_eq, place_injective.eq_iff]

theorem cmp_ne_gt_iff : x.cmp y ≠ .gt ↔ x.place ≤ y.place := by
  rw [cmp_eq_compare_place, compare_le_iff_le]

theorem cmp_flip (x y : Float64) : y.cmp x = (x.cmp y).swap := by
  rw [cmp_eq_compare_place, cmp_eq_compare_place, ← cmp_eq_compare, ← cmp_eq_compare, cmp_swap]

theorem isNaN_ofBits {bits : UInt64} : (ofBits bits).isNaN = true ↔ number? bits = none := by
  rw [isNaN, ← number?_eq_none, ofBits, number?_canonicalBits]

theorem cmp_of_isNaN (hx : x.isNaN = true) : x.cmp y = if y.isNaN then .eq else .gt := by
  cases hy : y.isNaN <;> rw [cmp, hx, hy] <;> rfl

/-- Canonical patterns are totally ordered. Making a pattern canonical changes only NaNs and negative
zero, and doing it again changes nothing. Two canonical patterns compare as equal if and only if they
are the same number, and if and only if they are the same pattern. The order is antisymmetric,
transitive and total; NaN comes after everything else, and all other patterns are in the order of the
numbers that their signs, exponents and fractions stand for. -/
theorem comparison_totalOrder (a b c : UInt64) :
    canonicalBits (canonicalBits a) = canonicalBits a ∧
    (canonicalBits a = if number? a = none then 0x7ff8000000000000
      else if a = 0x8000000000000000 then 0 else a) ∧
    number? (canonicalBits a) = number? a ∧
    let x := ofBits a
    let y := ofBits b
    let z := ofBits c
    (x.cmp y = .eq ↔ x.same y = true) ∧
    (x.same y = true ↔ x.bits = y.bits) ∧
    y.cmp x = (x.cmp y).swap ∧
    (x.cmp y ≠ .gt → y.cmp x ≠ .gt → x.bits = y.bits) ∧
    (x.cmp y ≠ .gt → y.cmp z ≠ .gt → x.cmp z ≠ .gt) ∧
    (x.cmp y ≠ .gt ∨ y.cmp x ≠ .gt) ∧
    (number? a = none → x.cmp y = if number? b = none then .eq else .gt) ∧
    ∀ p q, number? a = some p → number? b = some q → x.cmp y = compare p q := by
  refine ⟨canonicalBits_idem a, canonicalBits_eq a, number?_canonicalBits a, ?_⟩
  intro x y z
  simp only [cmp_ne_gt_iff]
  refine ⟨cmp_eq_iff.trans same_iff.symm, same_iff.trans ⟨congrArg bits, ext_bits⟩, cmp_flip x y,
    fun xy yx => ?_, fun xy yz => xy.trans yz, le_total x.place y.place, fun nan => ?_,
    fun p q hp hq => ?_⟩
  · rw [place_injective (xy.antisymm yx)]
  · rw [cmp_of_isNaN (isNaN_ofBits.mpr nan)]
    simp only [y, isNaN_ofBits]
  · exact cmp_eq_compare_number ((number?_canonicalBits a).trans hp)
      ((number?_canonicalBits b).trans hq)

/-- A NaN with a sign and a payload, infinity, and negative zero. -/
theorem comparison_totalOrder_infinity :
    let nan := ofBits 0xfff0000000000001
    let infinity := ofBits 0x7ff0000000000000
    let zero := ofBits 0x8000000000000000
    number? 0xfff0000000000001 = none ∧ number? 0x7ff0000000000000 = some ⊤ ∧
      nan.cmp infinity = .gt ∧
      (zero.cmp infinity ≠ .gt ∧ infinity.cmp nan ≠ .gt ∧ zero.cmp nan ≠ .gt) ∧
      (∃ p, number? 0x8000000000000000 = some p ∧ zero.cmp infinity = compare p ⊤) ∧
      zero.bits = 0 := by
  intro nan infinity zero
  have noNumber : number? 0xfff0000000000001 = none := rfl
  have top : number? 0x7ff0000000000000 = some ⊤ := rfl
  obtain ⟨-, -, -, -, -, -, -, -, -, last, -⟩ :=
    comparison_totalOrder 0xfff0000000000001 0x7ff0000000000000 0
  obtain ⟨-, folded, -, -, -, -, -, trans, -, -, points⟩ :=
    comparison_totalOrder 0x8000000000000000 0x7ff0000000000000 0xfff0000000000001
  refine ⟨noNumber, top, last noNumber, ⟨by decide, by decide, trans (by decide) (by decide)⟩,
    ⟨_, rfl, points _ _ rfl top⟩, folded⟩

end Arbor.Float64
