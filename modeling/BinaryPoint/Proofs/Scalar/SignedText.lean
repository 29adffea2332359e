import BinaryPoint.Expression.Token
import BinaryPoint.Proofs.Scalar.DecimalText
import BinaryPoint.Proofs.Scalar.Saturation

/-!
# A decimal and its negative

A decimal and the same decimal behind a minus are cut into fields from below, the one from zero
and the other from the least word. A fraction that is no whole number of steps is thus moved down
in both, so the word of the negative may be one step below the negated word. It is so unless what
the fraction has beyond its last whole step is at most `59392` units, for so many units of a whole
number lie beyond its `65536` steps.

* `Decimal.ofText_minus`: the minus changes nothing but the sign.
* `Scalar.raw_minus`: the two words.
-/
namespace BinaryPoint

namespace Decimal

theorem exists_numeral {text : Text} (h : Literal.isDecimal text = true) :
    ∃ n : Numeral, n.negative = false ∧ n.text = text := by
  unfold Literal.isDecimal at h
  split at h
  · rename_i whole places hc
    rw [Bool.and_eq_true] at h
    refine ⟨⟨false, whole, some places, h.1, fun p hp => ?_⟩, rfl,
      (Text.cutAt_eq_some.mp hc).1.symm⟩
    cases hp
    exact h.2
  · exact ⟨⟨false, text, none, h, nofun⟩, rfl, rfl⟩

theorem ofDigits_true {whole places : Text} {d : Decimal}
    (h : ofDigits false whole places = .ok d) :
    d.negative = false ∧ ofDigits true whole places = .ok ⟨true, d.units, d.units_lt⟩ := by
  simp only [ofDigits] at h ⊢
  split at h
  · cases h
  · rename_i hv
    split at h
    · rename_i hu
      cases h
      exact ⟨rfl, by rw [if_neg hv, dif_pos hu]⟩
    · cases h

/-- Behind a minus a decimal is read with the same units. -/
theorem ofText_minus {text : Text} (ht : Literal.isDecimal text = true) {d : Decimal}
    (h : ofText text = .ok d) :
    d.negative = false ∧ ofText ('-' :: text) = .ok ⟨true, d.units, d.units_lt⟩ := by
  obtain ⟨n, hn, rfl⟩ := exists_numeral ht
  have hm : ofText ('-' :: n.text) = ofDigits true n.whole (n.places.getD []) := by
    have hneg := ofText_numeral ⟨true, n.whole, n.places, n.whole_digits, n.places_digits⟩
    have htext : '-' :: n.text =
        (⟨true, n.whole, n.places, n.whole_digits, n.places_digits⟩ : Numeral).text := by
      simp [Numeral.text, Numeral.body, hn]
    rw [htext]
    exact hneg
  rw [ofText_numeral, hn] at h
  rw [hm]
  exact ofDigits_true h

end Decimal

namespace Scalar

/-- The word of a decimal behind a minus is the negated word of the decimal or one step less. -/
theorem raw_minus {text : Text} (ht : Literal.isDecimal text = true) {x y : Scalar}
    (hx : ofDecimalText text = .ok x) (hy : ofDecimalText ('-' :: text) = .ok y) :
    ∃ d : Decimal, Decimal.ofText text = .ok d ∧
      y.raw = if d.units % 10 ^ 11 % 1525878 ≤ 59392 then (-x).raw else (-x).raw - 1 := by
  cases hd : Decimal.ofText text with
  | error e => rw [ofDecimalText, hd] at hx; cases hx
  | ok d =>
    obtain ⟨hneg, hminus⟩ := Decimal.ofText_minus ht hd
    have hpos : ReadAs d.units (.ok x) := by
      have h := ofDecimal_readAs d
      rw [ofDecimalText, hd] at hx
      rwa [show ofDecimal d = .ok x from hx, Decimal.toInt, Decimal.signed, hneg] at h
    have hbelow : ReadAs (-(d.units : ℤ)) (.ok y) := by
      have h := ofDecimal_readAs ⟨true, d.units, d.units_lt⟩
      rw [ofDecimalText, hminus] at hy
      rwa [show ofDecimal ⟨true, d.units, d.units_lt⟩ = .ok y from hy] at h
    obtain ⟨hfx, hrx⟩ := hpos.of_ok
    obtain ⟨hfy, hry⟩ := hbelow.of_ok
    have hmax := x.raw_le
    refine ⟨d, rfl, ?_⟩
    rw [raw_neg, clamp_eq_self (by omega) (by omega)]
    split <;> omega

end Scalar

end BinaryPoint
