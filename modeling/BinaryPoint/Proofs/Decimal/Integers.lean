import BinaryPoint.Proofs.Decimal.Rounding

/-!
# Integers in decimal

An integer in decimal is a numeral without a point. `Text.ofInt` writes one, without leading
zeros; leading zeros and a minus before zero may be read.

* `DenotesInt`: the text writes the integer in decimal.
* `denotesInt_ofInt`: every integer is written so by `Text.ofInt`.
* `DenotesInt.denotes`, `roundAway_intCast`: an integer is its own value, and nothing of it is
  rounded.
-/
namespace BinaryPoint

namespace Text

theorem digitValue_digitChar {d : ℕ} (h : d < 10) : digitValue (Nat.digitChar d) = d := by
  interval_cases d <;> rfl

theorem isDigit_digitChar {d : ℕ} (h : d < 10) : isDigit (Nat.digitChar d) = true := by
  interval_cases d <;> rfl

/-- The last digit comes off the end. -/
theorem ofNat_eq (n : ℕ) :
    ofNat n = (if n < 10 then [] else ofNat (n / 10)) ++ [Nat.digitChar (n % 10)] := by
  unfold ofNat
  rw [Nat.toDigits_eq_if (by omega)]
  by_cases h : n < 10
  · rw [if_pos h, if_pos h, Nat.mod_eq_of_lt h, List.nil_append]
  · rw [if_neg h, if_neg h]

theorem isDigits_ofNat (n : ℕ) : isDigits (ofNat n) = true := by
  refine isDigits_iff.mpr ⟨Nat.toDigits_ne_nil, ?_⟩
  induction n using Nat.strongRecOn with
  | ind n ih =>
    intro c hc
    rw [ofNat_eq, List.mem_append, List.mem_singleton] at hc
    rcases hc with hc | rfl
    · by_cases h : n < 10
      · rw [if_pos h] at hc; cases hc
      · rw [if_neg h] at hc; exact ih (n / 10) (by omega) c hc
    · exact isDigit_digitChar (Nat.mod_lt _ (by omega))

theorem decimalValue_ofNat (n : ℕ) : decimalValue (ofNat n) = n := by
  induction n using Nat.strongRecOn with
  | ind n ih =>
    rw [ofNat_eq, decimalValue, valueIn_concat, digitValue_digitChar (Nat.mod_lt _ (by omega))]
    by_cases h : n < 10
    · rw [if_pos h]; simp only [valueIn, List.foldl_nil]; omega
    · have hd := ih (n / 10) (by omega)
      rw [decimalValue] at hd
      rw [if_neg h, hd]; omega

end Text

namespace Decimal

/-- The text writes the integer `n` in decimal. -/
def DenotesInt (text : Text) (n : ℤ) : Prop :=
  ∃ m : Numeral, m.places = none ∧ m.text = text ∧ signed m.negative (Text.decimalValue m.whole) = n

theorem denotesInt_ofInt (n : ℤ) : DenotesInt (Text.ofInt n) n := by
  refine ⟨⟨n < 0, Text.ofNat n.natAbs, none, Text.isDigits_ofNat _, nofun⟩, rfl, ?_, ?_⟩
  · simp only [Numeral.text, Numeral.body, Text.ofInt, decide_eq_true_eq]
    split <;> rfl
  · simp only [signed, Text.decimalValue_ofNat, decide_eq_true_eq]
    split <;> omega

theorem DenotesInt.of_mem {text : Text} {n : ℤ} (h : DenotesInt text n) {c : Char} (hc : c ∈ text) :
    c = '-' ∨ Text.isDigit c = true := by
  obtain ⟨m, hp, rfl, -⟩ := h
  rw [Numeral.text, Numeral.body, hp, List.mem_append] at hc
  rcases hc with hc | hc
  · refine .inl ?_
    split at hc
    · exact List.mem_singleton.mp hc
    · cases hc
  · exact .inr ((Text.isDigits_iff.mp m.whole_digits).2 c hc)

theorem DenotesInt.ne_nil {text : Text} {n : ℤ} (h : DenotesInt text n) : text ≠ [] := by
  obtain ⟨m, hp, rfl, -⟩ := h
  have hw := (Text.isDigits_iff.mp m.whole_digits).1
  simp [Numeral.text, Numeral.body, hp, hw]

/-- As a number with places the integer has none. -/
theorem DenotesInt.denotes {text : Text} {n : ℤ} (h : DenotesInt text n) : Denotes text n := by
  obtain ⟨m, hp, ht, rfl⟩ := h
  refine ⟨m, ht, ?_⟩
  have hm : m.magnitude = Text.decimalValue m.whole := by
    simp [Numeral.magnitude, hp, fractionValue]
  rw [Numeral.value, hm, signed]
  split <;> simp

theorem roundAway_intCast (n : ℤ) : roundAway n = n := by
  by_cases h : 0 ≤ n
  · rw [roundAway_of_nonneg (by exact_mod_cast h), Int.floor_intCast_add]
    norm_num
  · have hn : (0 : ℚ) ≤ ((-n : ℤ) : ℚ) := by exact_mod_cast (by omega : 0 ≤ -n)
    have he := roundAway_neg hn
    rw [Int.floor_intCast_add] at he
    norm_num at he
    exact he

end Decimal

end BinaryPoint
