import Arbor.Proofs.Float64.Decimal
import Arbor.Proofs.Phrase.Written

/-!
# The text of numbers

Integers and floating-point numbers are written in the form that numbers are read in
(`numberText_int`, `written_float`). A decimal is written either with all its digits around the
point or with an exponent; both ways the digits and the exponent that are read make the decimal
again, except that a whole number gets one more zero after its point.
-/

namespace Arbor.Phrase

open Text Float64

/-! ## Digits -/

theorem digits_toDigits (n : Nat) : Digits (Nat.toDigits 10 n) where
  nonempty := Nat.toDigits_ne_nil
  digits c hc := by
    have digit := Nat.isDigit_of_mem_toDigits (by decide) (by decide) hc
    rw [Char.isDigit_iff_toNat] at digit
    rw [isDigit, Bool.and_eq_true, Nat.ble_eq, Nat.ble_eq]
    exact digit

theorem isDigit_replicate {k : Nat} : ∀ c ∈ List.replicate k '0', isDigit c = true := by
  intro c hc
  rw [(List.mem_replicate.mp hc).2]
  rfl

theorem digitsValue_toDigits (n : Nat) : digitsValue (Nat.toDigits 10 n) = n :=
  Nat.ofDigitChars_ten_toDigits

theorem digitsValue_zeros_append (k : Nat) (digits : List Char) :
    digitsValue (List.replicate k '0' ++ digits) = digitsValue digits := by
  change Nat.ofDigitChars 10 _ 0 = Nat.ofDigitChars 10 _ 0
  rw [Nat.ofDigitChars_append, Nat.ofDigitChars_replicate_zero, Nat.mul_zero]

theorem digitsValue_append_zeros (k : Nat) (digits : List Char) :
    digitsValue (digits ++ List.replicate k '0') = digitsValue digits * 10 ^ k := by
  change Nat.ofDigitChars 10 _ 0 = Nat.ofDigitChars 10 _ 0 * 10 ^ k
  rw [Nat.ofDigitChars_append, Nat.ofDigitChars_replicate_zero, Nat.mul_comm]

theorem exponentValue_toDigits {n : Nat} (h : n < 65536) :
    exponentValue (Nat.toDigits 10 n) = n := by
  induction n using Nat.base_induction 10 (by decide) with
  | single m hm =>
    rw [Nat.toDigits_of_lt_base hm]
    simp [exponentValue, Nat.toNat_digitChar_sub_48_of_lt_ten hm]
  | digit m k hk hm ih =>
    have ih := ih (by omega)
    rw [← Nat.toDigits_append_toDigits (by decide) hm hk, Nat.toDigits_of_lt_base hk]
    rw [exponentValue] at ih ⊢
    rw [List.foldl_append, ih, List.foldl_cons, List.foldl_nil, if_pos (by omega),
      Nat.toNat_digitChar_sub_48_of_lt_ten hk]

/-! ## Integers -/

theorem numberText_int (i : Int64) : NumberText (.int i) (intChars i.toInt) := by
  have low := i.le_toInt
  have high := i.toInt_lt
  have value (negative : Bool) (sign : (if negative then -(i.toInt.natAbs : Int)
      else i.toInt.natAbs) = i.toInt) :
      number? negative (Nat.toDigits 10 i.toInt.natAbs) none none = some (.int i) := by
    simp only [number?, integer?, digitsValue_toDigits, sign]
    rw [if_pos (by decide), if_pos (by omega), Int64.ofInt_toInt]
  unfold intChars
  split
  · have := NumberText.mk (digits_toDigits i.toInt.natAbs) .none .none
      (value true (by rw [if_pos rfl]; omega))
    simpa using this
  · have := NumberText.mk (digits_toDigits i.toInt.natAbs) .none .none
      (value false (by rw [if_neg Bool.false_ne_true]; omega))
    simpa using this

theorem exponentText_int {k : Int} (h : k.natAbs < 65536) :
    ExponentText (some k) ('e' :: intChars k) := by
  have digits := digits_toDigits k.natAbs
  unfold intChars
  split
  · have text := ExponentText.some (.inl rfl) .minus digits
    rw [exponentValue_toDigits h, if_pos rfl] at text
    have : -(k.natAbs : Int) = k := by omega
    rwa [this] at text
  · have text := ExponentText.some (.inl rfl) .none digits
    rw [exponentValue_toDigits h, if_neg Bool.false_ne_true] at text
    have : (k.natAbs : Int) = k := by omega
    rwa [this] at text

/-! ## Decimals -/

/-- The text has a fraction or an exponent, and its digits read as the decimal does. -/
inductive DecimalText (d : Decimal) : List Char → Prop
  | mk {whole fractionText exponentText : List Char} {fraction : Option (List Char)}
      {exponent : Option Int} :
      Digits whole → FractionText fraction fractionText → ExponentText exponent exponentText →
        ¬ (fraction.isNone ∧ exponent.isNone) →
          decimalMagnitude ⟨digitsValue (whole ++ fraction.getD []),
            exponent.getD 0 - (fraction.getD []).length⟩ = decimalMagnitude d →
            DecimalText d (whole ++ (fractionText ++ exponentText))

theorem DecimalText.number {d : Decimal} {text : List Char} (h : DecimalText d text)
    (negative : Bool) :
    NumberText (.float (ofDecimal negative d)) ((if negative then ['-'] else []) ++ text) := by
  obtain ⟨whole, fraction, exponent, parts, value⟩ := h
  refine .mk whole fraction exponent ?_
  simp only [number?, if_neg parts, ofDecimal, value]

theorem DecimalText.exact {n : Nat} {e : Int} {whole fractionText exponentText : List Char}
    {fraction : Option (List Char)} {exponent : Option Int} (hw : Digits whole)
    (hf : FractionText fraction fractionText) (he : ExponentText exponent exponentText)
    (parts : ¬ (fraction.isNone ∧ exponent.isNone))
    (digits : digitsValue (whole ++ fraction.getD []) = n)
    (point : exponent.getD 0 - (fraction.getD []).length = e) :
    DecimalText ⟨n, e⟩ (whole ++ (fractionText ++ exponentText)) :=
  .mk hw hf he parts (by rw [digits, point])

theorem positional_text {d : Decimal} (positive : 0 < d.digits) :
    DecimalText d (positional (Nat.toDigits 10 d.digits) (pointOf d)) := by
  obtain ⟨n, e⟩ := d
  dsimp only at positive
  have digits := digits_toDigits n
  have value := digitsValue_toDigits n
  unfold positional pointOf
  dsimp only
  generalize Nat.toDigits 10 n = run at digits value
  have zero : Digits ['0'] := ⟨by simp, by simp [isDigit]⟩
  split
  · obtain ⟨k, hk⟩ : ∃ k : Nat, (-(run.length + e)).toNat = k := ⟨_, rfl⟩
    rw [hk]
    have fraction : Digits (List.replicate k '0' ++ run) :=
      ⟨by simp [digits.nonempty], List.forall_mem_append.mpr ⟨isDigit_replicate, digits.digits⟩⟩
    have text := DecimalText.exact (n := n) (e := e) zero (.some fraction) .none (by simp)
      ((digitsValue_zeros_append 1 _).trans ((digitsValue_zeros_append k run).trans value))
      (by simp; omega)
    simpa using text
  split
  · obtain ⟨k, hk⟩ : ∃ k : Nat, (run.length + e).toNat = k := ⟨_, rfl⟩
    rw [hk]
    have whole : Digits (run.take k) :=
      ⟨by simp [digits.nonempty]; omega, fun c hc => digits.digits c (List.mem_of_mem_take hc)⟩
    have fraction : Digits (run.drop k) :=
      ⟨by simp; omega, fun c hc => digits.digits c (List.mem_of_mem_drop hc)⟩
    have text := DecimalText.exact (n := n) (e := e) whole (.some fraction) .none (by simp)
      (by rw [Option.getD_some, List.take_append_drop, value]) (by simp; omega)
    simpa using text
  · obtain ⟨k, rfl⟩ : ∃ k : Nat, e = k := ⟨e.toNat, by omega⟩
    have zeros : ((run.length : Int) + k).toNat - run.length = k := by omega
    rw [zeros]
    have whole : Digits (run ++ List.replicate k '0') :=
      ⟨by simp [digits.nonempty], List.forall_mem_append.mpr ⟨digits.digits, isDigit_replicate⟩⟩
    have shifted : digitsValue (run ++ List.replicate k '0' ++ ['0']) = n * 10 ^ (k + 1) := by
      rw [List.append_assoc, ← List.replicate_succ', digitsValue_append_zeros, value]
    have text := DecimalText.mk (d := ⟨n, k⟩) whole (.some zero) .none (by simp) (by
      rw [Option.getD_some, shifted]
      exact decimalMagnitude_mul_ten positive k)
    simpa using text

theorem scientific_text {d : Decimal} (high : pointOf d ≤ 310) (low : -330 ≤ pointOf d) :
    DecimalText d (scientific (Nat.toDigits 10 d.digits) (pointOf d - 1)) := by
  obtain ⟨n, e⟩ := d
  have digits := digits_toDigits n
  have value := digitsValue_toDigits n
  have exponent : ExponentText (some (pointOf ⟨n, e⟩ - 1)) ('e' :: intChars (pointOf ⟨n, e⟩ - 1)) :=
    exponentText_int (by omega)
  unfold pointOf at exponent ⊢
  dsimp only at exponent ⊢
  generalize Nat.toDigits 10 n = run at digits value exponent
  match run, digits, value, exponent with
  | [], digits, _, _ => exact absurd rfl digits.nonempty
  | [c], digits, value, exponent =>
    have text := DecimalText.exact (n := n) (e := e) digits .none exponent (by simp)
      (by simpa using value) (by simp)
    simpa [scientific] using text
  | c :: c' :: rest, digits, value, exponent =>
    have whole : Digits [c] := ⟨by simp, by simpa using digits.digits c List.mem_cons_self⟩
    have fraction : Digits (c' :: rest) :=
      ⟨by simp, fun d hd => digits.digits d (List.mem_cons_of_mem c hd)⟩
    have text := DecimalText.exact (n := n) (e := e) whole (.some fraction) exponent (by simp)
      (by simpa using value) (by simp; omega)
    simpa [scientific] using text

theorem decimalChars_text {d : Decimal} (positive : 0 < d.digits) (high : pointOf d ≤ 310)
    (low : -330 ≤ pointOf d) : DecimalText d (decimalChars d) := by
  unfold decimalChars
  dsimp only
  split
  · exact positional_text positive
  · exact scientific_text high low

/-! ## Floating-point numbers -/

theorem ofMagnitude_magnitude (x : Float64) : ofMagnitude x.isNegative (magnitude x.bits) = x := by
  have small : x.bits.toNat < 2 ^ 64 := x.bits.toNat_lt
  have parts : (if x.isNegative then signWeight + magnitude x.bits else magnitude x.bits) =
      x.bits.toNat := by
    unfold isNegative isNegativeBits magnitude signWeight
    by_cases h : 0x8000000000000000 ≤ x.bits.toNat
    · rw [if_pos (Nat.ble_eq.mpr h)]
      omega
    · rw [if_neg (by simpa using h)]
      omega
  obtain ⟨bits, canonical⟩ := x
  rw [ofMagnitude, parts, UInt64.ofNat_toNat, ofBits]
  simp only [canonical]

theorem eq_nan {x : Float64} (h : x.isNaN = true) : x = nan := by
  obtain ⟨bits, canonical⟩ := x
  have nanBits : isNaNBits bits = true := h
  have pattern : bits = 0x7ff8000000000000 := by
    rw [← canonical, canonicalBits, if_pos nanBits]
  subst pattern
  rfl

theorem decimalMagnitude_zero (e : Int) : decimalMagnitude ⟨0, e⟩ = 0 := by
  simp [decimalMagnitude]

theorem decimalText_zero : DecimalText ⟨0, 0⟩ ['0', '.', '0'] := by
  have zero : Digits ['0'] := ⟨by simp, by simp [isDigit]⟩
  refine DecimalText.mk zero (.some zero) .none (by simp) ?_
  exact (decimalMagnitude_zero _).trans (decimalMagnitude_zero _).symm

theorem decimalText_shortest {m : Nat} (positive : 0 < m) (finite : m < infinityMagnitude) :
    DecimalText (shortestDecimal m) (decimalChars (shortestDecimal m)) := by
  have reads := shortestDecimal_reads positive finite
  obtain ⟨digits, high, low⟩ := pointOf_bounds (d := shortestDecimal m) (by omega) (by omega)
  exact decimalChars_text digits high low

theorem written_float (x : Float64) : Written (.literal (.float x)) x.chars := by
  have whole := ofMagnitude_magnitude x
  have decimal {d : Decimal} {text : List Char} (h : DecimalText d text)
      (reads : decimalMagnitude d = magnitude x.bits) :
      Written (.literal (.float x)) ((if x.isNegative then ['-'] else []) ++ text) := by
    have number := h.number x.isNegative
    rw [ofDecimal, reads, whole] at number
    exact .literal (.number number)
  have sign (text : List Char) : (if x.isNegative then '-' :: text else text) =
      (if x.isNegative then ['-'] else []) ++ text := by
    split <;> rfl
  unfold chars
  split
  · rename_i h
    rw [eq_nan h]
    exact .constant .nan
  rename_i number
  rw [sign, magnitudeChars]
  by_cases zero : magnitude x.bits = 0
  · rw [if_pos zero]
    exact decimal decimalText_zero ((decimalMagnitude_zero 0).trans zero.symm)
  rw [if_neg zero]
  by_cases infinite : magnitude x.bits = infinityMagnitude
  · rw [if_pos infinite]
    rw [infinite] at whole
    cases negative : x.isNegative with
    | true =>
      rw [negative] at whole
      rw [← whole]
      exact .literal .negInfinity
    | false =>
      rw [negative] at whole
      rw [← whole]
      exact .constant .infinity
  · rw [if_neg infinite]
    have bound : ¬ infinityMagnitude < magnitude x.bits := by
      rwa [isNaN, isNaNBits, Nat.blt_eq] at number
    have reads := shortestDecimal_reads (m := magnitude x.bits) (by omega) (by omega)
    exact decimal (decimalText_shortest (by omega) (by omega)) reads

end Arbor.Phrase
