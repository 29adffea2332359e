import Mathlib.Data.Rat.Floor
import Mathlib.Tactic.FieldSimp
import Mathlib.Tactic.Linarith
import Mathlib.Tactic.Positivity
import BinaryPoint.Proofs.Decimal.Numerals

/-!
# Rounding to eleven places

The reader keeps eleven places and looks at one more. That is the exact number in units of
`10^-11`, rounded to the nearest integer with halves away from zero, no matter how many places
there are and how far a carry runs.

* `placesUnits_eq`: the kept places and the next one, as a floor of the exact value.
* `ofText_units`: what a numeral is read as, in terms of its units.
* `Numeral.signed_units`: the units with their sign are the value, rounded.
-/
namespace BinaryPoint.Decimal

/-- The integer nearest to `q`, and of two such the one farther from zero. -/
def roundAway (q : ℚ) : ℤ := if 0 ≤ q then ⌊q + 1 / 2⌋ else ⌈q - 1 / 2⌉

theorem roundAway_of_nonneg {q : ℚ} (h : 0 ≤ q) : roundAway q = ⌊q + 1 / 2⌋ := if_pos h

theorem roundAway_neg {q : ℚ} (h : 0 ≤ q) : roundAway (-q) = -⌊q + 1 / 2⌋ := by
  rcases h.eq_or_lt with rfl | h
  · norm_num [roundAway]
  · rw [roundAway, if_neg (by linarith), ← Int.ceil_neg]
    congr 1; ring

theorem roundAway_mono {p q : ℚ} (h : p ≤ q) : roundAway p ≤ roundAway q := by
  unfold roundAway
  split
  · rw [if_pos (by linarith)]
    exact Int.floor_le_floor (by linarith)
  · rename_i hp
    split
    · rename_i hq
      calc ⌈p - 1 / 2⌉ ≤ 0 := Int.ceil_le.mpr (by push_cast; linarith)
        _ ≤ ⌊q + 1 / 2⌋ := Int.floor_nonneg.mpr (by linarith)
    · exact Int.ceil_le_ceil (by linarith)

theorem abs_roundAway_sub_le (q : ℚ) : |roundAway q - q| ≤ 1 / 2 := by
  have hl := Int.floor_le (q + 1 / 2)
  have hu := Int.lt_floor_add_one (q + 1 / 2)
  have hl' := Int.le_ceil (q - 1 / 2)
  have hu' := Int.ceil_lt_add_one (q - 1 / 2)
  unfold roundAway
  rw [abs_le]
  split <;> constructor <;> linarith

/-! ## Digits behind the point -/

theorem fractionValue_append (a b : Text) :
    fractionValue (a ++ b) = (Text.decimalValue a + fractionValue b) / 10 ^ a.length := by
  induction a with
  | nil => simp [Text.decimalValue, Text.valueIn]
  | cons c rest ih =>
    rw [List.cons_append, fractionValue, ih, Text.decimalValue_cons, List.length_cons, pow_succ]
    push_cast
    field_simp
    ring

theorem fractionValue_nonneg (digits : Text) : 0 ≤ fractionValue digits := by
  induction digits with
  | nil => exact le_refl 0
  | cons c rest ih => rw [fractionValue]; positivity

theorem fractionValue_lt_one {digits : Text} (h : ∀ c ∈ digits, Text.isDigit c = true) :
    fractionValue digits < 1 := by
  induction digits with
  | nil => norm_num [fractionValue]
  | cons c rest ih =>
    have hr := ih fun d hd => h d (List.mem_cons_of_mem _ hd)
    have hc : (Text.digitValue c : ℚ) ≤ 9 := by
      exact_mod_cast Nat.le_of_lt_succ (Text.digitValue_of_isDigit (h c List.mem_cons_self))
    rw [fractionValue, div_lt_one (by norm_num)]
    linarith

theorem fractionValue_append_zeros (digits : Text) (n : Nat) :
    fractionValue (digits ++ List.replicate n '0') = fractionValue digits := by
  have hz : fractionValue (List.replicate n '0') = 0 := by
    induction n with
    | zero => rfl
    | succ n ih =>
      rw [List.replicate_succ, fractionValue, ih, Text.digitValue_zero]; norm_num
  have hn : fractionValue [] = 0 := rfl
  rw [fractionValue_append, hz, ← hn, ← fractionValue_append, List.append_nil]

/-- The kept places in front of the others: padding is needed only if there are no others. -/
theorem fractionValue_kept (places : Text) : fractionValue places =
    (Text.decimalValue ((places.take 11).rightpad 11 '0') + fractionValue (places.drop 11)) /
      10 ^ 11 := by
  have hl : ((places.take 11).rightpad 11 '0').length = 11 := by
    rw [List.length_rightpad, List.length_take]; omega
  have hk : fractionValue ((places.take 11).rightpad 11 '0' ++ places.drop 11) =
      fractionValue places := by
    rw [List.rightpad]
    by_cases h : 11 ≤ places.length
    -- either nothing is padded, or nothing is dropped
    · have hz : 11 - (places.take 11).length = 0 := by rw [List.length_take]; omega
      rw [hz, List.replicate_zero, List.append_nil, List.take_append_drop]
    · have ht : places.take 11 = places := List.take_of_length_le (by omega)
      rw [ht, List.drop_of_length_le (by omega), List.append_nil, fractionValue_append_zeros]
  rw [← hk, fractionValue_append, hl]

/-- The next digit decides whether what is dropped is at least a half. -/
theorem floor_fractionValue {digits : Text} (h : ∀ c ∈ digits, Text.isDigit c = true) :
    ⌊fractionValue digits + 1 / 2⌋ =
      if 5 ≤ Text.digitValue (digits.headD '0') then 1 else 0 := by
  have hn := fractionValue_nonneg digits
  have hlt := fractionValue_lt_one h
  cases digits with
  | nil => norm_num [fractionValue]; decide
  | cons c rest =>
    have hr := fractionValue_nonneg rest
    have hr' := fractionValue_lt_one fun d hd => h d (List.mem_cons_of_mem _ hd)
    rw [fractionValue] at hn hlt ⊢
    rw [List.headD_cons]
    split
    · rename_i hc
      have hc' : (5 : ℚ) ≤ Text.digitValue c := by exact_mod_cast hc
      rw [Int.floor_eq_iff]
      constructor <;> push_cast <;> linarith
    · rename_i hc
      have hc' : (Text.digitValue c : ℚ) ≤ 4 := by exact_mod_cast (by omega : Text.digitValue c ≤ 4)
      rw [Int.floor_eq_iff]
      constructor <;> push_cast <;> linarith

theorem placesUnits_eq {places : Text} (h : ∀ c ∈ places, Text.isDigit c = true) :
    (placesUnits places : ℤ) = ⌊fractionValue places * scale + 1 / 2⌋ := by
  have hs : fractionValue places * scale =
      Text.decimalValue ((places.take 11).rightpad 11 '0') + fractionValue (places.drop 11) := by
    rw [fractionValue_kept, scale]; norm_num
  rw [hs, add_assoc, Int.floor_natCast_add,
    floor_fractionValue fun c hc => h c (List.mem_of_mem_drop hc), placesUnits]
  push_cast
  split <;> rfl

/-! ## Numerals in units -/

namespace Numeral

/-- The magnitude in units of `10^-11`, rounded. -/
def units (n : Numeral) : Nat :=
  Text.decimalValue n.whole * scale + placesUnits (n.places.getD [])

theorem digits_places (n : Numeral) : ∀ c ∈ n.places.getD [], Text.isDigit c = true := by
  cases hp : n.places with
  | none => exact nofun
  | some p => exact (Text.isDigits_iff.mp (n.places_digits p (by rw [hp]; rfl))).2

theorem units_eq (n : Numeral) : (n.units : ℤ) = ⌊n.magnitude * scale + 1 / 2⌋ := by
  have hm : n.magnitude * scale + 1 / 2 = (Text.decimalValue n.whole * scale : Nat) +
      (fractionValue (n.places.getD []) * scale + 1 / 2) := by
    rw [magnitude]; push_cast; ring
  rw [hm, Int.floor_natCast_add, ← placesUnits_eq n.digits_places, units]
  push_cast; rfl

theorem magnitude_nonneg (n : Numeral) : 0 ≤ n.magnitude :=
  add_nonneg (Nat.cast_nonneg _) (fractionValue_nonneg _)

/-- The signed units are the exact value, rounded half away from zero. -/
theorem signed_units (n : Numeral) : signed n.negative n.units = roundAway (n.value * scale) := by
  have hm : (0 : ℚ) ≤ n.magnitude * scale := mul_nonneg n.magnitude_nonneg (Nat.cast_nonneg _)
  cases hn : n.negative with
  | true =>
    have hv : n.value * scale = -(n.magnitude * scale) := by rw [value, hn, if_pos rfl]; ring
    rw [hv, roundAway_neg hm, ← units_eq, signed, if_pos rfl]
  | false =>
    have hv : n.value = n.magnitude := by rw [value, hn, if_neg Bool.false_ne_true]
    rw [hv, roundAway_of_nonneg hm, ← units_eq, signed, if_neg Bool.false_ne_true]

end Numeral

/-- A numeral is read in units, and refused if it has more than five whole digits then. -/
theorem ofText_units (n : Numeral) :
    (∀ h : n.units < 10000000000000000, ofText n.text = .ok ⟨n.negative, n.units, h⟩) ∧
      (10000000000000000 ≤ n.units → ∃ v, ofText n.text = .error (.wholeRange v)) := by
  rw [ofText_numeral]
  unfold ofDigits Numeral.units scale
  dsimp only
  constructor
  · intro h
    rw [if_neg (by omega), dif_pos h]
  · intro h
    split
    · exact ⟨_, rfl⟩
    · rw [dif_neg (by omega)]; exact ⟨_, rfl⟩

end BinaryPoint.Decimal
