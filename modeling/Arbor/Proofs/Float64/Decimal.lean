import Arbor.Float64.Decimal
import Mathlib.Algebra.Order.Field.Power
import Mathlib.Data.Rat.Cast.Order
import Mathlib.Tactic.Linarith
import Mathlib.Tactic.NormNum
import Mathlib.Tactic.Positivity
import Mathlib.Tactic.Ring

/-!
# Decimals read back

The shortest decimal of a finite magnitude reads back as that magnitude (`shortestDecimal_reads`).
The search only returns what reads back, so what is left is the exact decimal that it falls back on:
rounding an exact value changes nothing. Reading depends only on the value of a decimal, not on its
trailing zeros (`decimalMagnitude_mul_ten`).
-/

namespace Arbor.Float64

/-! ## Powers of two -/

theorem cast_twoTo_toNat (e : Int) : (twoTo e.toNat : ℚ) = 2 ^ e * twoTo (-e).toNat := by
  have split : (e.toNat : Int) = e + (-e).toNat := by omega
  simp only [twoTo, Nat.pow_eq, Nat.cast_pow, Nat.cast_ofNat, ← zpow_natCast]
  rw [split, zpow_add₀ two_ne_zero]

theorem twoTo_pos (k : Nat) : 0 < twoTo k := Nat.pow_pos (by decide)

theorem twoTo_le_iff {num den : Nat} {e : Int} :
    den * twoTo e.toNat ≤ num * twoTo (-e).toNat ↔ (2 : ℚ) ^ e * den ≤ num := by
  have positive : (0 : ℚ) < twoTo (-e).toNat := Nat.cast_pos.mpr (twoTo_pos _)
  rw [← Nat.cast_le (α := ℚ), Nat.cast_mul, Nat.cast_mul, cast_twoTo_toNat, ← mul_assoc,
    mul_le_mul_iff_left₀ positive, mul_comm]

/-! ## The binary exponent -/

theorem log2_bounds {n : Nat} (h : 0 < n) :
    (2 : ℚ) ^ (n.log2 : Int) ≤ n ∧ (n : ℚ) < 2 ^ ((n.log2 : Int) + 1) := by
  obtain ⟨low, high⟩ := (Nat.log2_eq_iff h.ne').mp rfl
  constructor
  · exact_mod_cast low
  · exact_mod_cast high

theorem binaryExponent_spec {num den : Nat} (hn : 0 < num) (hd : 0 < den) :
    (2 : ℚ) ^ binaryExponent num den * den ≤ num ∧
      (num : ℚ) < 2 ^ (binaryExponent num den + 1) * den := by
  obtain ⟨numLow, numHigh⟩ := log2_bounds hn
  obtain ⟨denLow, denHigh⟩ := log2_bounds hd
  -- The difference of the logarithms is right or one too large.
  have upper (e : Int) (he : e = num.log2 - den.log2) : (num : ℚ) < 2 ^ (e + 1) * den :=
    calc (num : ℚ) < 2 ^ ((num.log2 : Int) + 1) := numHigh
      _ = 2 ^ (e + 1) * 2 ^ (den.log2 : Int) := by
        rw [← zpow_add₀ two_ne_zero, he]
        congr 1
        omega
      _ ≤ 2 ^ (e + 1) * den := by gcongr
  have lower (e : Int) (he : e = num.log2 - den.log2) : (2 : ℚ) ^ (e - 1) * den ≤ num :=
    calc (2 : ℚ) ^ (e - 1) * den ≤ 2 ^ (e - 1) * 2 ^ ((den.log2 : Int) + 1) := by gcongr
      _ = 2 ^ (num.log2 : Int) := by
        rw [← zpow_add₀ two_ne_zero, he]
        congr 1
        omega
      _ ≤ num := numLow
  unfold binaryExponent
  dsimp only
  split
  · rename_i h
    exact ⟨twoTo_le_iff.mp h, upper _ rfl⟩
  · rename_i h
    rw [twoTo_le_iff, not_le] at h
    refine ⟨lower _ rfl, ?_⟩
    rwa [Int.sub_add_cancel]

theorem binaryExponent_eq {num den : Nat} {e : Int} (hn : 0 < num) (hd : 0 < den)
    (low : (2 : ℚ) ^ e * den ≤ num) (high : (num : ℚ) < 2 ^ (e + 1) * den) :
    binaryExponent num den = e := by
  obtain ⟨low', high'⟩ := binaryExponent_spec hn hd
  have positive : (0 : ℚ) < den := Nat.cast_pos.mpr hd
  have order {a b : Int} (h : (2 : ℚ) ^ a * den < 2 ^ b * den) : a < b :=
    (zpow_lt_zpow_iff_right₀ one_lt_two).mp (lt_of_mul_lt_mul_right h positive.le)
  have := order (low.trans_lt high')
  have := order (low'.trans_lt high)
  omega

/-! ## Rounding -/

theorem roundDiv_mul (c num den : Nat) (hc : 0 < c) :
    roundDiv (c * num) (c * den) = roundDiv num den := by
  simp only [roundDiv, Nat.mul_div_mul_left _ _ hc, Nat.mul_mod_mul_left]
  have scale (a b : Nat) : c * a < 2 * (c * b) ↔ a < 2 * b := by
    rw [Nat.mul_left_comm, Nat.mul_lt_mul_left hc]
  have scale' (a b : Nat) : 2 * (c * a) = c * b ↔ 2 * a = b := by
    rw [Nat.mul_left_comm, Nat.mul_right_inj hc.ne']
  simp only [scale, scale']

theorem roundDiv_exact (m den : Nat) (hd : 0 < den) : roundDiv (m * den) den = m := by
  simp [roundDiv, Nat.mul_div_cancel _ hd, hd.ne]

theorem nearestMagnitude_mul (c num den : Nat) (hc : 0 < c) (hd : 0 < den) :
    nearestMagnitude (c * num) (c * den) = nearestMagnitude num den := by
  rcases Nat.eq_zero_or_pos num with rfl | hn
  · rw [Nat.mul_zero, nearestMagnitude, nearestMagnitude, if_pos rfl, if_pos rfl]
  have exponents : binaryExponent (c * num) (c * den) = binaryExponent num den := by
    obtain ⟨low, high⟩ := binaryExponent_spec hn hd
    have positive : (0 : ℚ) < c := Nat.cast_pos.mpr hc
    apply binaryExponent_eq (Nat.mul_pos hc hn) (Nat.mul_pos hc hd)
    · rw [Nat.cast_mul, Nat.cast_mul, mul_left_comm]
      gcongr
    · rw [Nat.cast_mul, Nat.cast_mul, mul_left_comm]
      gcongr
  have rounded (q : Int) : scaledRound (c * num) (c * den) q = scaledRound num den q := by
    rw [scaledRound, scaledRound, Nat.mul_assoc, Nat.mul_assoc, roundDiv_mul _ _ _ hc]
  simp only [nearestMagnitude, hn.ne', (Nat.mul_pos hc hn).ne', exponents, rounded]

/-! ## Exact values -/

theorem mantissa_bounds {m : Nat} (hm : 0 < m) :
    0 < mantissa m ∧ mantissa m < 2 ^ 53 ∧ (exponent m = -1074 ∨ 2 ^ 52 ≤ mantissa m) := by
  unfold mantissa exponent fractionCount
  split <;> omega

/-- What a finite magnitude stands for is at least one and less than two units in its own binary
exponent, or it lies below all normal numbers. -/
theorem magnitude_eq {m : Nat} (hm : 0 < m) :
    ((exponent m + 1074).toNat * fractionCount + mantissa m = m) ∧ -1074 ≤ exponent m := by
  unfold mantissa exponent fractionCount
  split <;> omega

theorem nearestMagnitude_exact {m num den : Nat} (hm : 0 < m) (finite : m < infinityMagnitude)
    (hn : 0 < num) (hd : 0 < den)
    (exact : num * twoTo (-exponent m).toNat = mantissa m * (den * twoTo (exponent m).toNat)) :
    nearestMagnitude num den = m := by
  obtain ⟨positive, small, normal⟩ := mantissa_bounds hm
  obtain ⟨parts, least⟩ := magnitude_eq hm
  have value : (num : ℚ) = mantissa m * 2 ^ exponent m * den := by
    have scale : (0 : ℚ) < twoTo (-exponent m).toNat := Nat.cast_pos.mpr (twoTo_pos _)
    have cast : (num : ℚ) * twoTo (-exponent m).toNat =
        mantissa m * (den * twoTo (exponent m).toNat) := by exact_mod_cast exact
    rw [cast_twoTo_toNat (exponent m)] at cast
    apply mul_right_cancel₀ scale.ne'
    rw [cast]
    ring
  have denPositive : (0 : ℚ) < den := Nat.cast_pos.mpr hd
  have exponents : (if binaryExponent num den - 52 < -1074 then -1074
      else binaryExponent num den - 52) = exponent m := by
    have shift (k : Nat) : (2 : ℚ) ^ (exponent m + k) * den = 2 ^ k * 2 ^ exponent m * den := by
      rw [zpow_add₀ two_ne_zero, zpow_natCast, mul_comm (2 ^ exponent m)]
    by_cases full : 2 ^ 52 ≤ mantissa m
    · have : binaryExponent num den = exponent m + 52 := by
        apply binaryExponent_eq hn hd
        · rw [value]
          refine (shift 52).trans_le ?_
          gcongr
          exact_mod_cast full
        · rw [value, add_assoc]
          refine lt_of_lt_of_eq ?_ (shift 53).symm
          gcongr
          exact_mod_cast small
      split <;> omega
    · have below : (num : ℚ) < 2 ^ (exponent m + 52) * den := by
        rw [value]
        refine lt_of_lt_of_eq ?_ (shift 52).symm
        gcongr
        exact_mod_cast Nat.lt_of_not_le full
      have lower := (binaryExponent_spec hn hd).1.trans_lt below
      have : binaryExponent num den < exponent m + 52 :=
        (zpow_lt_zpow_iff_right₀ one_lt_two).mp (lt_of_mul_lt_mul_right lower denPositive.le)
      split <;> omega
  simp only [nearestMagnitude, hn.ne', if_false, exponents, scaledRound, exact]
  rw [roundDiv_exact _ _ (Nat.mul_pos hd (twoTo_pos _)), parts, if_neg (Nat.not_lt.mpr finite.le)]

/-! ## The length of decimals -/

theorem lt_pow_length (n : Nat) : n < 10 ^ (Nat.toDigits 10 n).length :=
  (Nat.length_toDigits_le_iff (by decide) Nat.length_toDigits_pos).mp (Nat.le_refl _)

/-- The position of the decimal point behind the first digit. -/
def pointOf (d : Decimal) : Int := (Nat.toDigits 10 d.digits).length + d.exponent

theorem decimalMagnitude_eq {d : Decimal} (positive : 0 < d.digits) (high : pointOf d ≤ 310)
    (low : -330 ≤ pointOf d) :
    decimalMagnitude d =
      nearestMagnitude (d.digits * tenTo d.exponent.toNat) (tenTo (-d.exponent).toNat) := by
  unfold pointOf at high low
  simp only [decimalMagnitude]
  rw [if_neg positive.ne', if_neg (by omega), if_neg (by omega)]

/-- A decimal that reads as a finite magnitude other than zero has its point near by. -/
theorem pointOf_bounds {d : Decimal} (positive : 0 < decimalMagnitude d)
    (finite : decimalMagnitude d < infinityMagnitude) :
    0 < d.digits ∧ pointOf d ≤ 310 ∧ -330 ≤ pointOf d := by
  unfold pointOf
  simp only [decimalMagnitude] at positive finite
  split at positive
  · omega
  rename_i hd
  rw [if_neg hd] at finite
  split at positive
  · simp_all
  rename_i high
  rw [if_neg high] at finite
  split at positive
  · omega
  · omega

theorem length_toDigits_mul_pow {n : Nat} (hn : 0 < n) (k : Nat) :
    (Nat.toDigits 10 (n * 10 ^ k)).length = (Nat.toDigits 10 n).length + k := by
  induction k with
  | zero => rw [Nat.pow_zero, Nat.mul_one, Nat.add_zero]
  | succ k ih =>
    have positive : 0 < n * 10 ^ k := Nat.mul_pos hn (Nat.pow_pos (by decide))
    have shifted : n * 10 ^ (k + 1) = 10 * (n * 10 ^ k) + 0 := by ring
    rw [shifted, ← Nat.toDigits_append_toDigits (by decide) positive (by decide),
      List.length_append, ih, Nat.toDigits_zero]
    rfl

/-- Trailing zeros do not change what a decimal reads as. -/
theorem decimalMagnitude_mul_ten {n : Nat} (hn : 0 < n) (k : Nat) :
    decimalMagnitude ⟨n * 10 ^ (k + 1), -1⟩ = decimalMagnitude ⟨n, k⟩ := by
  have positive : 0 < n * 10 ^ (k + 1) := Nat.mul_pos hn (Nat.pow_pos (by decide))
  have point : ((Nat.toDigits 10 (n * 10 ^ (k + 1))).length : Int) + -1 =
      (Nat.toDigits 10 n).length + k := by
    rw [length_toDigits_mul_pow hn]
    omega
  have scaled : nearestMagnitude (n * 10 ^ (k + 1) * tenTo (-1 : Int).toNat)
      (tenTo (- -1 : Int).toNat) =
        nearestMagnitude (n * tenTo (k : Int).toNat) (tenTo (-(k : Int)).toNat) := by
    have unit : (-(k : Int)).toNat = 0 := by omega
    have shifted : n * 10 ^ (k + 1) * tenTo (-1 : Int).toNat = 10 * (n * tenTo k) := by
      change n * 10 ^ (k + 1) * 1 = 10 * (n * 10 ^ k)
      ring
    rw [unit, Int.toNat_natCast, shifted]
    exact nearestMagnitude_mul 10 (n * tenTo k) 1 (by decide) (by decide)
  simp only [decimalMagnitude, positive.ne', hn.ne', point, scaled]

theorem exponent_le {m : Nat} (finite : m < infinityMagnitude) : exponent m ≤ 971 := by
  unfold exponent fractionCount
  unfold infinityMagnitude at finite
  split <;> omega

theorem decimalMagnitude_whole {m : Nat} (hm : 0 < m) (finite : m < infinityMagnitude)
    (whole : 0 ≤ exponent m) :
    decimalMagnitude ⟨mantissa m * twoTo (exponent m).toNat, 0⟩ = m := by
  obtain ⟨positive, small, -⟩ := mantissa_bounds hm
  have digits : 0 < mantissa m * twoTo (exponent m).toNat := Nat.mul_pos positive (twoTo_pos _)
  have bound : mantissa m * twoTo (exponent m).toNat < 10 ^ 310 :=
    calc mantissa m * twoTo (exponent m).toNat
        < 2 ^ 53 * twoTo (exponent m).toNat := Nat.mul_lt_mul_of_pos_right small (twoTo_pos _)
      _ ≤ 2 ^ 53 * 2 ^ 971 := by
        refine Nat.mul_le_mul_left _ (Nat.pow_le_pow_right (by decide) ?_)
        have := exponent_le finite
        omega
      _ < 10 ^ 310 := by decide +kernel
  have short := (Nat.length_toDigits_le_iff (by decide) (by decide)).mpr bound
  rw [decimalMagnitude_eq digits]
  · apply nearestMagnitude_exact hm finite
    · exact Nat.mul_pos digits (Nat.pow_pos (by decide))
    · exact Nat.pow_pos (by decide)
    · have unit : (-exponent m).toNat = 0 := by omega
      rw [unit]
      change mantissa m * twoTo (exponent m).toNat * 1 * 1 =
        mantissa m * (1 * twoTo (exponent m).toNat)
      ring
  · unfold pointOf
    dsimp only
    omega
  · unfold pointOf
    dsimp only
    omega

theorem decimalMagnitude_fraction {m p : Nat} (hm : 0 < m) (finite : m < infinityMagnitude)
    (fraction : exponent m = -p) :
    decimalMagnitude ⟨mantissa m * Nat.pow 5 p, -p⟩ = m := by
  obtain ⟨positive, small, -⟩ := mantissa_bounds hm
  obtain ⟨-, least⟩ := magnitude_eq hm
  have digits : 0 < mantissa m * 5 ^ p := Nat.mul_pos positive (Nat.pow_pos (by decide))
  have short : (Nat.toDigits 10 (mantissa m * 5 ^ p)).length ≤ p + 16 := by
    rw [Nat.length_toDigits_le_iff (by decide) (by omega), Nat.pow_add, Nat.mul_comm]
    have fives : 5 ^ p ≤ 10 ^ p := Nat.pow_le_pow_left (by decide) p
    exact Nat.mul_lt_mul_of_le_of_lt fives (by omega) (Nat.pow_pos (by decide))
  have long : p ≤ (Nat.toDigits 10 (mantissa m * 5 ^ p)).length + 330 := by
    by_contra h
    -- Half of the ten's power is left to the mantissa: `5 ^ 331` outweighs `2 ^ 743`.
    obtain ⟨k, rfl⟩ : ∃ k, p = k + 331 := ⟨p - 331, by omega⟩
    have enough : 10 ^ k ≤ mantissa m * 5 ^ (k + 331) :=
      calc 10 ^ k = 5 ^ k * 2 ^ k := by rw [← Nat.mul_pow]
        _ ≤ 5 ^ k * 2 ^ 743 := Nat.mul_le_mul_left _ (Nat.pow_le_pow_right (by decide) (by omega))
        _ ≤ 5 ^ k * 5 ^ 331 := Nat.mul_le_mul_left _ (by decide +kernel)
        _ = 5 ^ (k + 331) := (Nat.pow_add 5 k 331).symm
        _ ≤ mantissa m * 5 ^ (k + 331) := Nat.le_mul_of_pos_left _ positive
    have := lt_pow_length (mantissa m * 5 ^ (k + 331))
    have := (Nat.pow_lt_pow_iff_right (by decide)).mp (enough.trans_lt this)
    omega
  have up : (-(p : Int)).toNat = 0 := by omega
  have down : (- -(p : Int)).toNat = p := by omega
  rw [decimalMagnitude_eq digits]
  · apply nearestMagnitude_exact hm finite
    · exact Nat.mul_pos digits (Nat.pow_pos (by decide))
    · exact Nat.pow_pos (by decide)
    · dsimp only
      rw [fraction, up, down]
      change mantissa m * 5 ^ p * 1 * 2 ^ p = mantissa m * (10 ^ p * 1)
      rw [Nat.mul_one, Nat.mul_one, Nat.mul_assoc, ← Nat.mul_pow]
  · unfold pointOf
    dsimp only [Nat.pow_eq]
    omega
  · unfold pointOf
    dsimp only [Nat.pow_eq]
    omega

theorem decimalMagnitude_exactDecimal {m : Nat} (hm : 0 < m) (finite : m < infinityMagnitude) :
    decimalMagnitude (exactDecimal m) = m := by
  unfold exactDecimal
  dsimp only
  split
  · rename_i whole
    exact decimalMagnitude_whole hm finite whole
  · have fraction : exponent m = -((-exponent m).toNat : Int) := by omega
    have reads := decimalMagnitude_fraction hm finite fraction
    rwa [← fraction] at reads

theorem shortestFrom_reads {m num den : Nat} {steps : Nat} {k : Int} {d : Decimal}
    (h : shortestFrom m num den steps k = some d) : decimalMagnitude d = m := by
  induction steps generalizing k with
  | zero => cases h
  | succ steps ih =>
    simp only [shortestFrom] at h
    split at h
    · rename_i low high
      cases h
      split
      · exact beq_iff_eq.mp low
      · exact beq_iff_eq.mp high
    · rename_i low _
      cases h
      exact beq_iff_eq.mp low
    · rename_i _ high
      cases h
      exact beq_iff_eq.mp high
    · exact ih h

theorem shortestDecimal_reads {m : Nat} (hm : 0 < m) (finite : m < infinityMagnitude) :
    decimalMagnitude (shortestDecimal m) = m := by
  unfold shortestDecimal
  dsimp only
  cases h : shortestFrom m (mantissa m * twoTo (exponent m).toNat) (twoTo (-exponent m).toNat) 20
      ((binaryExponent (mantissa m * twoTo (exponent m).toNat)
        (twoTo (-exponent m).toNat) + 1) * 30103 / 100000 + 1) with
  | none => exact decimalMagnitude_exactDecimal hm finite
  | some d => exact shortestFrom_reads h

end Arbor.Float64
