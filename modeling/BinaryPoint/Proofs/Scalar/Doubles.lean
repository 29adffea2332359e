import Mathlib.Algebra.Order.Field.Power
import BinaryPoint.Scalar.Double
import BinaryPoint.Proofs.Scalar.Faithfulness
import BinaryPoint.Proofs.Scalar.Saturation

/-!
# Words and the numbers of doubles

A pattern of 64 bits has a sign, an exponent and a fraction. If the exponent is the greatest one,
then the pattern is an infinity or no number; otherwise it stands for a rational number, and every
such number is `mantissa * 2^exponent` up to its sign. Its product with `2^16` is exact, or infinite
and far beyond the words. A shift by the exponent, rounded up from a half, is the floor of the
product plus one half, so a double is read as the word nearest to its number in steps of `2^-16`.
Back, the leading bit of a word gives the exponent, and what is below it fits into the fraction, so
nothing is rounded.

* `Pattern.value`, `Pattern.ext_of_value`: the number of a pattern, and that it and the sign
  determine the pattern.
* `Double.timesUnit_finite`: which products are infinite.
* `nearest_eq`, `raw_ofDouble_finite`: a shift is a rounding.
* `toDoubleBits_fields`: the pattern of a word.
* `ofDouble_nearest`: what every pattern is read as, and that every word survives.
-/
namespace BinaryPoint

/-! ## Patterns of doubles -/

namespace Pattern

/-- The lowest 52 bits. -/
def fraction (bits : UInt64) : ℕ := bits.toNat % 2 ^ 52

/-- The eleven bits above the fraction. -/
def exponent (bits : UInt64) : ℕ := bits.toNat / 2 ^ 52 % 2 ^ 11

/-- The highest bit is set. -/
def Negative (bits : UInt64) : Prop := 2 ^ 63 ≤ bits.toNat

/-- No number: all bits of the exponent are set, and some bit of the fraction is. -/
def IsNaN (bits : UInt64) : Prop := exponent bits = 2047 ∧ fraction bits ≠ 0

/-- An infinity: all bits of the exponent are set, and none of the fraction is. -/
def IsInfinite (bits : UInt64) : Prop := exponent bits = 2047 ∧ fraction bits = 0

/-- A number: some bit of the exponent is not set. -/
def IsFinite (bits : UInt64) : Prop := exponent bits ≠ 2047

/-- The number of a finite pattern without its sign. The least exponent is that of zero and of the
subnormal numbers, which have no leading one. -/
def magnitude (bits : UInt64) : ℚ :=
  if exponent bits = 0 then fraction bits / 2 ^ 1074
  else (1 + fraction bits / 2 ^ 52) * 2 ^ ((exponent bits : ℤ) - 1023)

instance (bits : UInt64) : Decidable (Negative bits) := inferInstanceAs (Decidable (_ ≤ _))

instance (bits : UInt64) : Decidable (IsNaN bits) := inferInstanceAs (Decidable (_ ∧ _))

instance (bits : UInt64) : Decidable (IsInfinite bits) := inferInstanceAs (Decidable (_ ∧ _))

instance (bits : UInt64) : Decidable (IsFinite bits) := inferInstanceAs (Decidable (_ ≠ _))

/-- The number of a finite pattern. -/
def value (bits : UInt64) : ℚ := if Negative bits then -magnitude bits else magnitude bits

variable {bits b c : UInt64}

/-- The three fields are the whole pattern. -/
theorem toNat_eq (bits : UInt64) : bits.toNat =
    (if Negative bits then 2 ^ 63 else 0) + exponent bits * 2 ^ 52 + fraction bits := by
  have := bits.toNat_lt
  unfold exponent fraction
  by_cases h : Negative bits
  · rw [if_pos h]
    unfold Negative at h
    omega
  · rw [if_neg h]
    unfold Negative at h
    omega

theorem fraction_lt (bits : UInt64) : (fraction bits : ℚ) < 2 ^ 52 := by
  exact_mod_cast Nat.mod_lt _ (by decide)

/-- The numbers of an exponent end where those of the next one begin. -/
theorem magnitude_lt (bits : UInt64) : magnitude bits < 2 ^ ((exponent bits : ℤ) - 1022) := by
  have hf := fraction_lt bits
  unfold magnitude
  split
  · rename_i h
    have hs : (2 : ℚ) ^ (((0 : ℕ) : ℤ) - 1022) * 2 ^ 1074 = 2 ^ 52 := by
      rw [← zpow_natCast, ← zpow_add₀ two_ne_zero, ← zpow_natCast]; rfl
    rw [h, div_lt_iff₀ (by positivity), hs]
    exact hf
  · have hs : (2 : ℚ) ^ ((exponent bits : ℤ) - 1022) = 2 * 2 ^ ((exponent bits : ℤ) - 1023) := by
      rw [← zpow_one_add₀ two_ne_zero]; congr 1; ring
    rw [hs]
    refine mul_lt_mul_of_pos_right ?_ (by positivity)
    have : (fraction bits : ℚ) / 2 ^ 52 < 1 := (div_lt_one (by positivity)).mpr hf
    linarith

theorem le_magnitude (h : exponent bits ≠ 0) :
    2 ^ ((exponent bits : ℤ) - 1023) ≤ magnitude bits := by
  rw [magnitude, if_neg h]
  refine le_mul_of_one_le_left (by positivity) ?_
  have : (0 : ℚ) ≤ fraction bits / 2 ^ 52 := by positivity
  linarith

theorem magnitude_nonneg (bits : UInt64) : 0 ≤ magnitude bits := by
  unfold magnitude
  split <;> positivity

theorem magnitude_lt_of_exponent_lt (h : exponent b < exponent c) : magnitude b < magnitude c := by
  calc magnitude b < 2 ^ ((exponent b : ℤ) - 1022) := magnitude_lt b
    _ ≤ 2 ^ ((exponent c : ℤ) - 1023) := zpow_le_zpow_right₀ one_le_two (by omega)
    _ ≤ magnitude c := le_magnitude (by omega)

theorem fraction_eq_of_magnitude (he : exponent b = exponent c) (h : magnitude b = magnitude c) :
    fraction b = fraction c := by
  have hp : (0 : ℚ) < 2 ^ ((exponent c : ℤ) - 1023) := by positivity
  unfold magnitude at h
  rw [he] at h
  split at h
  · exact_mod_cast (div_left_inj' (by positivity)).mp h
  · have h := mul_right_cancel₀ hp.ne' h
    exact_mod_cast (div_left_inj' (by positivity)).mp (add_left_cancel h)

/-- Only the sign of zero is not in the number. -/
theorem ext_of_value (hs : Negative b ↔ Negative c) (h : value b = value c) : b = c := by
  have hm : magnitude b = magnitude c := by
    unfold value at h
    by_cases hb : Negative b
    · rw [if_pos hb, if_pos (hs.mp hb)] at h; exact neg_injective h
    · rw [if_neg hb, if_neg (mt hs.mpr hb)] at h; exact h
  have he : exponent b = exponent c := by
    rcases lt_trichotomy (exponent b) (exponent c) with hlt | he | hgt
    · exact absurd hm (magnitude_lt_of_exponent_lt hlt).ne
    · exact he
    · exact absurd hm (magnitude_lt_of_exponent_lt hgt).ne'
  refine UInt64.toNat_inj.mp ?_
  rw [toNat_eq b, toNat_eq c, he, fraction_eq_of_magnitude he hm, if_congr hs rfl rfl]

end Pattern

/-! ## What a pattern denotes -/

namespace Double

open Pattern

variable {bits : UInt64}

theorem negative_iff (bits : UInt64) :
    exponentCount ≤ bits.toNat / implicitBit ↔ Negative bits := by
  unfold exponentCount implicitBit Negative
  omega

/-- The fields, by their names. -/
theorem ofBits_eq (bits : UInt64) : ofBits bits =
    if exponent bits = 2047 then
      if fraction bits = 0 then .infinite (Negative bits) else .undefined
    else if exponent bits = 0 then .finite (Negative bits) (fraction bits) (-1074)
    else .finite (Negative bits) (2 ^ 52 + fraction bits) ((exponent bits : ℤ) - 1075) := by
  rw [← decide_eq_decide.mpr (negative_iff bits)]
  rfl

theorem ofBits_of_isNaN (h : IsNaN bits) : ofBits bits = .undefined := by
  rw [ofBits_eq, if_pos h.1, if_neg h.2]

theorem ofBits_of_isInfinite (h : IsInfinite bits) : ofBits bits = .infinite (Negative bits) := by
  rw [ofBits_eq, if_pos h.1, if_pos h.2]

theorem ofBits_of_isFinite (h : IsFinite bits) : ∃ m e,
    ofBits bits = .finite (Negative bits) m e ∧ magnitude bits = m * 2 ^ e := by
  rw [ofBits_eq, if_neg h]
  by_cases he : exponent bits = 0
  · refine ⟨_, _, if_pos he, ?_⟩
    rw [magnitude, if_pos he, zpow_neg, div_eq_mul_inv]
    rfl
  · refine ⟨_, _, if_neg he, ?_⟩
    have hs : (exponent bits : ℤ) - 1023 = ((exponent bits : ℤ) - 1075) + (52 : ℕ) := by
      push_cast; ring
    rw [magnitude, if_neg he, hs, zpow_add₀ two_ne_zero, zpow_natCast]
    push_cast
    ring

/-! ## Products with `2^16` -/

theorem two_pow_le_iff {m : ℕ} (hm : m ≠ 0) (e k : ℤ) :
    (2 : ℚ) ^ k ≤ m * 2 ^ e ↔ k ≤ m.log2 + e := by
  have hl : (2 : ℚ) ^ (m.log2 : ℤ) ≤ m := by
    rw [zpow_natCast]; exact_mod_cast Nat.log2_self_le hm
  have hu : (m : ℚ) < 2 ^ (m.log2 + 1 : ℤ) := by exact_mod_cast Nat.lt_log2_self
  constructor
  · intro h
    have hlt : (2 : ℚ) ^ k < 2 ^ (m.log2 + 1 + e : ℤ) := by
      calc (2 : ℚ) ^ k ≤ m * 2 ^ e := h
        _ < 2 ^ (m.log2 + 1 : ℤ) * 2 ^ e := mul_lt_mul_of_pos_right hu (by positivity)
        _ = 2 ^ (m.log2 + 1 + e : ℤ) := (zpow_add₀ two_ne_zero _ _).symm
    have := (zpow_lt_zpow_iff_right₀ one_lt_two).mp hlt
    omega
  · intro h
    calc (2 : ℚ) ^ k ≤ 2 ^ (m.log2 + e : ℤ) := zpow_le_zpow_right₀ one_le_two h
      _ = 2 ^ (m.log2 : ℤ) * 2 ^ e := zpow_add₀ two_ne_zero _ _
      _ ≤ m * 2 ^ e := mul_le_mul_of_nonneg_right hl (by positivity)

/-- The product is infinite exactly from `2^1024` on. -/
theorem timesUnit_finite (negative : Bool) (m : ℕ) (e : ℤ) : timesUnit (.finite negative m e) =
    if (2 : ℚ) ^ 1024 ≤ m * 2 ^ (e + 16) then .infinite negative
    else .finite negative m (e + 16) := by
  have h : m ≠ 0 ∧ 1024 ≤ (m.log2 : ℤ) + (e + 16) ↔ (2 : ℚ) ^ 1024 ≤ m * 2 ^ (e + 16) := by
    by_cases hm : m = 0
    · rw [hm, Nat.cast_zero, zero_mul]
      exact iff_of_false (fun h => h.1 rfl) (not_le.mpr (by positivity))
    · rw [and_iff_right hm, ← two_pow_le_iff hm]
      exact Iff.rfl
  exact if_congr h rfl rfl

end Double

namespace Scalar

open Pattern (IsNaN IsInfinite IsFinite Negative)
open Decimal (roundAway)

/-! ## From doubles -/

theorem nearest_eq (m : ℕ) (e : ℤ) : (nearest m e : ℤ) = ⌊(m : ℚ) * 2 ^ e + 1 / 2⌋ := by
  unfold nearest
  split
  · rename_i h
    obtain ⟨k, rfl⟩ := Int.eq_ofNat_of_zero_le h
    have hm : (m : ℚ) * 2 ^ (k : ℤ) = (m * 2 ^ k : ℕ) := by push_cast; rfl
    rw [hm, Int.floor_natCast_add, Int.toNat_natCast, Nat.shiftLeft_eq]
    norm_num
  · obtain ⟨k, rfl⟩ : ∃ k : ℕ, e = -k := ⟨(-e).toNat, by omega⟩
    have hm : (m : ℚ) * 2 ^ (-(k : ℤ)) + 1 / 2 = (2 * m + 2 ^ k : ℕ) / (2 ^ (k + 1) : ℕ) := by
      rw [zpow_neg, zpow_natCast]
      push_cast
      field_simp
      ring
    rw [hm, Rat.floor_natCast_div_natCast, ← Int.natCast_div]
    dsimp only
    rw [neg_neg, Int.toNat_natCast, Nat.one_shiftLeft, Nat.shiftRight_eq_div_pow]

theorem clamp_roundAway_of_le {q : ℚ} (h : 2 ^ 31 ≤ q) : clamp (roundAway q) = max.raw := by
  have hr : 2 ^ 31 ≤ roundAway q := by
    rw [← Decimal.roundAway_intCast (2 ^ 31)]
    exact Decimal.roundAway_mono (by exact_mod_cast h)
  unfold clamp
  simp only [max]
  omega

theorem clamp_roundAway_neg_of_le {q : ℚ} (h : 2 ^ 31 ≤ q) : clamp (roundAway (-q)) = min.raw := by
  have hr : roundAway (-q) ≤ -2 ^ 31 := by
    rw [← Decimal.roundAway_intCast (-2 ^ 31)]
    exact Decimal.roundAway_mono (by push_cast; linarith)
  unfold clamp
  simp only [min]
  omega

/-- A product that is infinite is beyond the range as well, on the same side. -/
theorem raw_ofDouble_finite (negative : Bool) (m : ℕ) (e : ℤ) :
    (ofDouble (.finite negative m e)).raw =
      clamp (roundAway (65536 * if negative then -((m : ℚ) * 2 ^ e) else m * 2 ^ e)) := by
  have hs : (65536 : ℚ) * (m * 2 ^ e) = m * 2 ^ (e + 16) := by
    rw [zpow_add₀ two_ne_zero]; ring
  have hn : (0 : ℚ) ≤ m * 2 ^ (e + 16) := by positivity
  rw [ofDouble, Double.timesUnit_finite]
  by_cases h : (2 : ℚ) ^ 1024 ≤ m * 2 ^ (e + 16)
  · have hr : (2 : ℚ) ^ 31 ≤ m * 2 ^ (e + 16) :=
      (pow_le_pow_right₀ one_le_two (by omega)).trans h
    rw [if_pos h]
    cases negative with
    | true =>
      rw [if_pos rfl, mul_neg, hs, clamp_roundAway_neg_of_le hr]
      rfl
    | false =>
      rw [if_neg Bool.false_ne_true, hs, clamp_roundAway_of_le hr]
      rfl
  · rw [if_neg h]
    dsimp only
    rw [raw_saturate, nearest_eq]
    split
    · rw [mul_neg, hs, Decimal.roundAway_neg hn]
    · rw [hs, Decimal.roundAway_of_nonneg hn]

theorem raw_ofDouble_ofBits {bits : UInt64} (h : IsFinite bits) :
    (ofDouble (.ofBits bits)).raw = clamp (roundAway (65536 * Pattern.value bits)) := by
  obtain ⟨m, e, hb, hm⟩ := Double.ofBits_of_isFinite h
  rw [hb, raw_ofDouble_finite, Pattern.value, hm]
  simp only [decide_eq_true_eq]

/-! ## To doubles -/

/-- Shifted until its leading bit is the implicit one, the magnitude of a word has no bit above
it. -/
theorem shiftLeft_bounds {n : ℕ} (h : n ≠ 0) (hn : n ≤ 2 ^ 31) : n.log2 ≤ 31 ∧
    2 ^ 52 ≤ n * 2 ^ (52 - n.log2) ∧ n * 2 ^ (52 - n.log2) < 2 ^ 53 := by
  have hl : n.log2 < 32 := (Nat.log2_lt h).mpr (by omega)
  refine ⟨by omega, ?_, ?_⟩
  · calc 2 ^ 52 = 2 ^ n.log2 * 2 ^ (52 - n.log2) := by rw [← pow_add]; congr 1; omega
      _ ≤ n * 2 ^ (52 - n.log2) := Nat.mul_le_mul_right _ (Nat.log2_self_le h)
  · calc n * 2 ^ (52 - n.log2) < 2 ^ (n.log2 + 1) * 2 ^ (52 - n.log2) :=
          Nat.mul_lt_mul_of_pos_right Nat.lt_log2_self (Nat.two_pow_pos _)
      _ = 2 ^ 53 := by rw [← pow_add]; congr 1; omega

/-- The exponent is at least `1007` and at most `1038`, so the pattern is finite and normal. -/
theorem toDoubleBits_fields {x : Scalar} (h : x.raw ≠ 0) :
    (Negative x.toDoubleBits ↔ x.raw < 0) ∧
      Pattern.exponent x.toDoubleBits = x.raw.natAbs.log2 + 1007 ∧
      Pattern.fraction x.toDoubleBits + 2 ^ 52 = x.raw.natAbs * 2 ^ (52 - x.raw.natAbs.log2) ∧
      x.raw.natAbs.log2 ≤ 31 := by
  have := x.neg_le_raw
  have := x.raw_le
  obtain ⟨hl, hb, hb'⟩ := shiftLeft_bounds (Int.natAbs_ne_zero.mpr h) (by omega)
  rw [toDoubleBits, if_neg h]
  unfold Negative Pattern.exponent Pattern.fraction Double.implicitBit Double.exponentCount
  dsimp only
  rw [Nat.shiftLeft_eq]
  generalize x.raw.natAbs * 2 ^ (52 - x.raw.natAbs.log2) = shifted at hb hb' ⊢
  generalize x.raw.natAbs.log2 = lead at hl ⊢
  rw [UInt64.toNat_ofNat', Nat.mod_eq_of_lt (by split <;> omega)]
  split <;> omega

theorem isFinite_toDoubleBits (x : Scalar) : IsFinite x.toDoubleBits := by
  by_cases h : x.raw = 0
  · rw [toDoubleBits, if_pos h]; decide
  · obtain ⟨-, he, -, hl⟩ := toDoubleBits_fields h
    rw [IsFinite, he]; omega

theorem negative_toDoubleBits (x : Scalar) : Negative x.toDoubleBits ↔ x.raw < 0 := by
  by_cases h : x.raw = 0
  · rw [toDoubleBits, if_pos h, h]; decide
  · exact (toDoubleBits_fields h).1

theorem magnitude_toDoubleBits (x : Scalar) :
    Pattern.magnitude x.toDoubleBits = x.raw.natAbs / 2 ^ 16 := by
  by_cases h : x.raw = 0
  · rw [toDoubleBits, if_pos h, h]
    norm_num [Pattern.magnitude, Pattern.exponent, Pattern.fraction]
  · obtain ⟨-, he, hf, hl⟩ := toDoubleBits_fields h
    generalize x.raw.natAbs = n at he hf hl ⊢
    have hf' : (2 : ℚ) ^ 52 + Pattern.fraction x.toDoubleBits = n * 2 ^ (52 - n.log2) := by
      rw [add_comm]; exact_mod_cast hf
    have hp : (2 : ℚ) ^ (52 - n.log2) = 2 ^ 52 * (2 ^ n.log2)⁻¹ :=
      pow_sub₀ 2 two_ne_zero (by omega)
    have he' : (((n.log2 + 1007 : ℕ) : ℤ) - 1023) = n.log2 - (16 : ℕ) := by push_cast; ring
    rw [Pattern.magnitude, he, if_neg (by omega), he', zpow_sub₀ two_ne_zero, zpow_natCast,
      zpow_natCast, one_add_div (by positivity), hf', hp]
    field_simp

theorem value_toDoubleBits (x : Scalar) : Pattern.value x.toDoubleBits = x.value := by
  rw [Pattern.value, magnitude_toDoubleBits, Nat.cast_natAbs, value,
    if_congr (negative_toDoubleBits x) rfl rfl]
  split
  · rename_i h
    rw [abs_of_neg h]; push_cast; ring
  · rename_i h
    rw [abs_of_nonneg (not_lt.mp h)]

theorem ofDouble_toDoubleBits (x : Scalar) : ofDouble (.ofBits x.toDoubleBits) = x := by
  have hv : 65536 * Pattern.value x.toDoubleBits = x.raw := by
    rw [value_toDoubleBits, value]; ring
  have := x.neg_le_raw
  have := x.raw_le
  ext
  rw [raw_ofDouble_ofBits x.isFinite_toDoubleBits, hv, Decimal.roundAway_intCast,
    clamp_eq_self (by omega) (by omega)]

/-! ## Both ways -/

/-- **Words of doubles.** No number is read as zero, and an infinity as the end of the range on its
side. The word of any other pattern is the number of the pattern in steps of `2^-16`, rounded with
halves away from zero, or the end of the range beyond which it lies. The pattern of a word is the
only one with its number and its sign, and it is read as that word again. -/
theorem ofDouble_nearest :
    (∀ bits, IsNaN bits → ofDouble (.ofBits bits) = zero) ∧
    (∀ bits, IsInfinite bits → ofDouble (.ofBits bits) = if Negative bits then min else max) ∧
    (∀ bits, IsFinite bits →
      (ofDouble (.ofBits bits)).raw = clamp (roundAway (65536 * Pattern.value bits))) ∧
    ∀ x : Scalar,
      (∀ bits, bits = x.toDoubleBits ↔ IsFinite bits ∧ (Negative bits ↔ x.raw < 0) ∧
        Pattern.value bits = x.raw / 65536) ∧
      ofDouble (.ofBits x.toDoubleBits) = x := by
  refine ⟨fun bits h => ?_, fun bits h => ?_, fun bits => raw_ofDouble_ofBits,
    fun x => ⟨fun bits => ⟨?_, ?_⟩, ofDouble_toDoubleBits x⟩⟩
  · rw [Double.ofBits_of_isNaN h]
    rfl
  · rw [Double.ofBits_of_isInfinite h]
    exact if_congr decide_eq_true_iff rfl rfl
  · rintro rfl
    refine ⟨x.isFinite_toDoubleBits, x.negative_toDoubleBits, ?_⟩
    rw [value_toDoubleBits, value]
    norm_num
  · rintro ⟨-, hs, hv⟩
    refine Pattern.ext_of_value (hs.trans x.negative_toDoubleBits.symm) ?_
    rw [hv, value_toDoubleBits, value]
    norm_num

/-- A negative pattern that is no number, the negative infinity, half a step below zero, the least
subnormal number, the greatest number, whose product with `2^16` is infinite, and a word that comes
back. -/
theorem ofDouble_nearest_half :
    ofDouble (.ofBits 0xFFF8000000000001) = zero ∧
    ofDouble (.ofBits 0xFFF0000000000000) = min ∧
    (65536 * Pattern.value 0xBEE0000000000000 = -1 / 2 ∧
      (ofDouble (.ofBits 0xBEE0000000000000)).raw = -1) ∧
    (Pattern.value 1 = 1 / 2 ^ 1074 ∧ (ofDouble (.ofBits 1)).raw = 0) ∧
    (ofDouble (.ofBits 0x7FEFFFFFFFFFFFFF)).raw = 2 ^ 31 - 1 ∧
    ofDouble (.ofBits one.toDoubleBits) = one := by
  have hh : 65536 * Pattern.value 0xBEE0000000000000 = -1 / 2 := by decide +kernel
  have hl : Pattern.value 1 = 1 / 2 ^ 1074 := by decide +kernel
  obtain ⟨hn, hi, hf, hx⟩ := ofDouble_nearest
  refine ⟨hn _ (by decide), hi _ (by decide), ⟨hh, ?_⟩, ⟨hl, ?_⟩, ?_, (hx one).2⟩
  · rw [hf _ (by decide), hh]; decide +kernel
  · rw [hf _ (by decide), hl]; decide +kernel
  · rw [hf _ (by decide)]; decide +kernel

end Scalar

end BinaryPoint
