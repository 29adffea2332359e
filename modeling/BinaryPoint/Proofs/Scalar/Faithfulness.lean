import BinaryPoint.Proofs.Decimal.Integers
import BinaryPoint.Proofs.Scalar.HexText

/-!
# Decimal text beside the number of a word

A step of the fraction is written as `1525878` units of `10^-11`, and `65536` of them are `59392`
units short of one. So the units of a word are below its number, by less than `59392`, and the
numbers read as a word begin at its units and end before the next step. The number of a word is
among them, and none of them is a whole step away from it.

* `value`, `units_le_value`, `value_le_units`: the number of a word and its units.
* `abs_sub_raw_lt`: a text that is accepted is less than one step away from its word.
* `ofDecimalText_of_value`: a text of the very number of a word is read as that word.
* `ofDecimalText_faithful`: both, and how exact the decimal text of a word is.
-/
namespace BinaryPoint.Scalar

open Decimal (Denotes Numeral roundAway)

/-- The number that the word stands for. -/
def value (x : Scalar) : ℚ := x.raw / 2 ^ 16

/-! ## Units and numbers of words -/

theorem units_mul_unit (x : Scalar) :
    x.units * 65536 = x.raw * 10 ^ 11 - x.raw % 65536 * 59392 := by
  rw [units_eq]
  omega

theorem value_eq_units (x : Scalar) :
    x.value * 10 ^ 11 = x.units + (x.raw % 65536 : ℤ) * 59392 / 65536 := by
  have h : (x.units : ℚ) * 65536 = x.raw * 10 ^ 11 - (x.raw % 65536 : ℤ) * 59392 := by
    exact_mod_cast x.units_mul_unit
  rw [value]
  linarith

theorem units_le_value (x : Scalar) : x.units ≤ x.value * 10 ^ 11 := by
  have h : (0 : ℚ) ≤ (x.raw % 65536 : ℤ) := by exact_mod_cast Int.emod_nonneg _ (by decide)
  rw [value_eq_units]
  linarith

theorem value_le_units (x : Scalar) : x.value * 10 ^ 11 ≤ (x.units + 59392 : ℤ) := by
  have h : ((x.raw % 65536 : ℤ) : ℚ) ≤ 65536 := by
    exact_mod_cast (Int.emod_lt_of_pos x.raw (by decide)).le
  rw [value_eq_units]
  push_cast
  linarith

/-! ## Accepted text -/

theorem exists_denotes_of_ok {text : Text} {x : Scalar} (h : ofDecimalText text = .ok x) :
    ∃ q, Denotes text q := by
  by_contra hn
  obtain ⟨defect, he⟩ := Decimal.ofText_malformed fun n ht => hn ⟨n.value, n, ht, rfl⟩
  rw [ofDecimalText, he] at h
  cases h

/-- Rounding moves the number by half a unit at most, and the last units of a step are missing by
more than that. -/
theorem abs_sub_raw_lt {text : Text} {q : ℚ} {x : Scalar} (hq : Denotes text q)
    (h : ofDecimalText text = .ok x) : |65536 * q - x.raw| < 1 := by
  have hr := readAs_of_denotes hq
  have hs := abs_le.mp (Decimal.abs_roundAway_sub_le (q * 10 ^ 11))
  rw [h, readAs_ok_iff] at hr
  generalize roundAway (q * 10 ^ 11) = s at hr hs
  have hl : (x.units : ℚ) ≤ s := by exact_mod_cast hr.1
  have hu : (s : ℚ) ≤ x.units + 1525877 := by exact_mod_cast (by omega : s ≤ x.units + 1525877)
  have hv := x.units_le_value
  have hv' := x.value_le_units
  rw [value] at hv hv'
  push_cast at hv'
  rw [abs_lt]
  constructor <;> linarith

/-- The number of a word lies between its units and the next step, and so does its rounding. -/
theorem ofDecimalText_of_value {text : Text} {x : Scalar} (h : Denotes text x.value) :
    ofDecimalText text = .ok x := by
  have hl : x.units ≤ roundAway (x.value * 10 ^ 11) := by
    rw [← Decimal.roundAway_intCast x.units]
    exact Decimal.roundAway_mono x.units_le_value
  have hu : roundAway (x.value * 10 ^ 11) ≤ x.units + 59392 := by
    rw [← Decimal.roundAway_intCast (x.units + 59392)]
    exact Decimal.roundAway_mono x.value_le_units
  exact (readAs_of_denotes h).eq_ok (readAs_ok_iff.mpr ⟨hl, by omega⟩)

/-! ## Exact text -/

/-- The number of the word in full: one step is `0.0000152587890625`. -/
def exactNumeral (x : Scalar) : Numeral where
  negative := x.raw < 0
  whole := Text.ofNat (x.raw.natAbs / 65536)
  places := some (Text.padded 10 16 (x.raw.natAbs % 65536 * 152587890625))
  whole_digits := Text.isDigits_ofNat _
  places_digits := by
    intro p hp
    rw [← Option.mem_some_iff.mp hp]
    exact Decimal.isDigits_padded _ _

theorem exactNumeral_magnitude (x : Scalar) :
    x.exactNumeral.magnitude = x.raw.natAbs / 2 ^ 16 := by
  have hp : x.raw.natAbs % 65536 * 152587890625 < 10 ^ 16 := by omega
  have hd : (65536 : ℚ) * (x.raw.natAbs / 65536 : ℕ) + (x.raw.natAbs % 65536 : ℕ) = x.raw.natAbs := by
    exact_mod_cast Nat.div_add_mod x.raw.natAbs 65536
  rw [Numeral.magnitude, exactNumeral, Option.getD_some, Text.decimalValue_ofNat,
    Decimal.fractionValue_padded hp, ← hd]
  push_cast
  ring

theorem exactNumeral_value (x : Scalar) : x.exactNumeral.value = x.value := by
  rw [Numeral.value, exactNumeral_magnitude, Nat.cast_natAbs, value, exactNumeral]
  dsimp only
  split
  · rename_i h
    rw [abs_of_neg (of_decide_eq_true h)]
    push_cast
    ring
  · rename_i h
    rw [abs_of_nonneg (by simpa using h)]

/-! ## Both ways -/

theorem abs_units_sub_value_lt (x : Scalar) :
    |(x.units / Decimal.scale : ℚ) - x.value| < 1 / 10 ^ 6 := by
  have hs : (Decimal.scale : ℚ) = 10 ^ 11 := by norm_num [Decimal.scale]
  have hv := x.units_le_value
  have hv' := x.value_le_units
  push_cast at hv'
  rw [hs, abs_lt]
  constructor <;> linarith

/-- **Faithful decimal text.** A text is read as a word only if it denotes a number, and one less
than a step away from the word. The very number of a word can be written, and every text of it is
read as that word. The decimal text of a word denotes a number less than `10^-6` away from it. -/
theorem ofDecimalText_faithful :
    (∀ (text : Text) (x : Scalar), ofDecimalText text = .ok x →
      (∃ q, Denotes text q) ∧ ∀ q, Denotes text q → |65536 * q - x.raw| < 1) ∧
    (∀ x : Scalar, (∃ text, Denotes text x.value) ∧
      ∀ text, Denotes text x.value → ofDecimalText text = .ok x) ∧
    ∀ x : Scalar, (∃ q, Denotes x.decimalText q) ∧
      ∀ q, Denotes x.decimalText q → |q - x.value| < 1 / 10 ^ 6 := by
  refine ⟨fun text x h => ⟨exists_denotes_of_ok h, fun q hq => abs_sub_raw_lt hq h⟩,
    fun x => ⟨⟨_, x.exactNumeral, rfl, x.exactNumeral_value⟩, fun _ => ofDecimalText_of_value⟩,
    fun x => ⟨⟨_, denotes_decimalText x⟩, fun q hq => ?_⟩⟩
  rw [hq.unique (denotes_decimalText x)]
  exact abs_units_sub_value_lt x

/-- A text between two words, a text of the number of a word, and the decimal text of a word. -/
theorem ofDecimalText_faithful_fifth :
    let text : Text := "-0.2".toList
    let exact : Text := "-00.5000".toList
    let x : Scalar := { raw := -13108 }
    let half : Scalar := { raw := -32768 }
    (ofDecimalText text = .ok x ∧ Denotes text (-(1 / 5)) ∧ |65536 * -(1 / 5 : ℚ) - x.raw| < 1) ∧
    (Denotes exact half.value ∧ ofDecimalText exact = .ok half) ∧
    ∃ q, Denotes x.decimalText q ∧ |q - x.value| < 1 / 10 ^ 6 := by
  intro text exact x half
  obtain ⟨accepted, exactly, written⟩ := ofDecimalText_faithful
  have hx : ofDecimalText text = .ok x := by decide +kernel
  have hq : Denotes text (-(1 / 5)) :=
    ⟨⟨true, ['0'], some ['2'], by decide, by rintro p ⟨⟩; decide⟩, by decide, by decide +kernel⟩
  have hh : Denotes exact half.value :=
    ⟨⟨true, "00".toList, some "5000".toList, by decide, by rintro p ⟨⟩; decide⟩, by decide,
      by decide +kernel⟩
  obtain ⟨q, hw⟩ := (written x).1
  exact ⟨⟨hx, hq, (accepted text x hx).2 _ hq⟩, ⟨hh, (exactly half).2 exact hh⟩, q, hw,
    (written x).2 q hw⟩

end BinaryPoint.Scalar
