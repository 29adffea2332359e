import BinaryPoint.Proofs.Decimal.Rounding
import BinaryPoint.Scalar.Literal

/-!
# What decimal text is read as

The reader takes positive and negative numbers apart in two ways, cuts the units into two
fields and puts these together as bits. All of it is one formula on the signed units `s`: the
floor of `s / 10^11` is the whole field, and the units above it make the fraction field.

* `ReadAs s r`: `r` is the word of `s` units, or the refusal of the field that is too great.
* `ofDecimal_readAs`: the two fields hold the signed units.
* `ofDecimalText_meaning`: the outcome for every text, and that reading is monotone.
-/
namespace BinaryPoint.Scalar

open Decimal (Denotes Numeral roundAway)

/-- The outcome `r` of `s` units of `10^-11`. -/
def ReadAs (s : ℤ) (r : Except NumberError Scalar) : Prop :=
  if s < -32768 * 10 ^ 11 ∨ 32768 * 10 ^ 11 ≤ s then ∃ v, r = .error (.wholeRange v)
  else if 65536 * 1525878 ≤ s % 10 ^ 11 then ∃ v, r = .error (.fractionRange v)
  else ∃ x : Scalar, r = .ok x ∧ x.raw = 65536 * (s / 10 ^ 11) + s % 10 ^ 11 / 1525878

theorem raw_ofBits (n : Nat) :
    (ofBits n).raw = ((n : ℤ) + 2147483648) % 4294967296 - 2147483648 := rfl

theorem readAs_whole {s v : ℤ} (h : s < -32768 * 10 ^ 11 ∨ 32768 * 10 ^ 11 ≤ s) :
    ReadAs s (.error (.wholeRange v)) := by
  rw [ReadAs, if_pos h]; exact ⟨v, rfl⟩

theorem readAs_fraction {s v : ℤ} (h : ¬(s < -32768 * 10 ^ 11 ∨ 32768 * 10 ^ 11 ≤ s))
    (hf : 65536 * 1525878 ≤ s % 10 ^ 11) : ReadAs s (.error (.fractionRange v)) := by
  rw [ReadAs, if_neg h, if_pos hf]; exact ⟨v, rfl⟩

theorem readAs_ok {s : ℤ} {x : Scalar} (h : ¬(s < -32768 * 10 ^ 11 ∨ 32768 * 10 ^ 11 ≤ s))
    (hf : s % 10 ^ 11 < 65536 * 1525878)
    (hx : x.raw = 65536 * (s / 10 ^ 11) + s % 10 ^ 11 / 1525878) : ReadAs s (.ok x) := by
  rw [ReadAs, if_neg h, if_neg (not_le.mpr hf)]; exact ⟨x, rfl, hx⟩

/-- With the sign bit the fields count from below, so they hold the floor in both cases. -/
theorem ofDecimal_readAs (d : Decimal) : ReadAs d.toInt (ofDecimal d) := by
  unfold ofDecimal signWeight Decimal.scale step
  dsimp only
  by_cases hn : (d.negative && d.units ≠ 0) = true
  -- below zero: the units count up from the least word, and the whole field cannot be too great
  · obtain ⟨hneg, hz⟩ : d.negative = true ∧ d.units ≠ 0 := by simpa using hn
    have hs : d.toInt = -(d.units : ℤ) := by rw [Decimal.toInt, hneg, Decimal.signed, if_pos rfl]
    rw [hs, hn]
    simp only [Bool.true_and, if_true, decide_eq_true_eq]
    split
    · exact readAs_whole (by omega)
    · rw [if_neg (by omega)]
      split
      · exact readAs_fraction (by omega) (by omega)
      · refine readAs_ok (by omega) (by omega) ?_
        rw [ofFields, raw_ofBits, if_pos rfl, unit]; omega
  -- from zero on, minus zero included
  · have hs : d.toInt = (d.units : ℤ) := by
      rw [Decimal.toInt, Decimal.signed]
      split
      · have : d.units = 0 := by simpa [*] using hn
        omega
      · rfl
    rw [hs, Bool.eq_false_iff.mpr hn]
    simp only [Bool.false_and, Bool.false_eq_true, if_false]
    split
    · exact readAs_whole (by omega)
    · split
      · exact readAs_fraction (by omega) (by omega)
      · refine readAs_ok (by omega) (by omega) ?_
        rw [ofFields, raw_ofBits, if_neg Bool.false_ne_true, unit]; omega

/-- A numeral is read as its value in units, rounded half away from zero. -/
theorem ofDecimalText_readAs (n : Numeral) :
    ReadAs (roundAway (n.value * 10 ^ 11)) (ofDecimalText n.text) := by
  have hs : (10 ^ 11 : ℚ) = Decimal.scale := by norm_num [Decimal.scale]
  rw [hs, ← n.signed_units, ofDecimalText]
  obtain ⟨hok, herr⟩ := Decimal.ofText_units n
  by_cases h : n.units < 10000000000000000
  · rw [hok h]; exact ofDecimal_readAs ⟨n.negative, n.units, h⟩
  · obtain ⟨v, hv⟩ := herr (by omega)
    rw [hv]
    refine readAs_whole ?_
    unfold Decimal.signed
    split <;> omega

theorem readAs_of_denotes {text : Text} {q : ℚ} (h : Denotes text q) :
    ReadAs (roundAway (q * 10 ^ 11)) (ofDecimalText text) := by
  obtain ⟨n, rfl, rfl⟩ := h
  exact ofDecimalText_readAs n

theorem ReadAs.eq_ok {s : ℤ} {r : Except NumberError Scalar} {x : Scalar} (h : ReadAs s r)
    (hx : ReadAs s (.ok x)) : r = .ok x := by
  unfold ReadAs at h hx
  split at hx
  · obtain ⟨v, hx⟩ := hx; cases hx
  · rename_i hw
    rw [if_neg hw] at h
    split at hx
    · obtain ⟨v, hx⟩ := hx; cases hx
    · rename_i hf
      rw [if_neg hf] at h
      obtain ⟨y, rfl, hy⟩ := h
      obtain ⟨_, ⟨⟩, hx⟩ := hx
      exact congrArg Except.ok (Scalar.ext (hy.trans hx.symm))

theorem ReadAs.of_ok {s : ℤ} {x : Scalar} (h : ReadAs s (.ok x)) :
    s % 10 ^ 11 < 65536 * 1525878 ∧
      x.raw = 65536 * (s / 10 ^ 11) + s % 10 ^ 11 / 1525878 := by
  unfold ReadAs at h
  split at h
  · obtain ⟨v, h⟩ := h; cases h
  · split at h
    · obtain ⟨v, h⟩ := h; cases h
    · rename_i hf
      obtain ⟨_, ⟨⟩, hx⟩ := h
      exact ⟨not_le.mp hf, hx⟩

theorem ReadAs.not_malformed {s : ℤ} {literal : Text} {defect : Malformed} :
    ¬ReadAs s (.error (.malformed literal defect)) := by
  intro h
  unfold ReadAs at h
  split at h
  · obtain ⟨v, h⟩ := h; cases h
  · split at h
    · obtain ⟨v, h⟩ := h; cases h
    · obtain ⟨x, h, _⟩ := h; cases h

/-- The fraction field of an accepted number stays below the next whole number. -/
theorem ReadAs.raw_le {s s' : ℤ} {x x' : Scalar} (h : ReadAs s (.ok x)) (h' : ReadAs s' (.ok x'))
    (hs : s ≤ s') : x.raw ≤ x'.raw := by
  obtain ⟨hf, hx⟩ := h.of_ok
  obtain ⟨hf', hx'⟩ := h'.of_ok
  have hw : s / 10 ^ 11 ≤ s' / 10 ^ 11 := Int.ediv_le_ediv (by decide) hs
  rcases hw.lt_or_eq with hw | hw
  -- one whole apart, and no fraction field is as great as that
  · omega
  · have hr : s % 10 ^ 11 ≤ s' % 10 ^ 11 := by omega
    have := Int.ediv_le_ediv (c := 1525878) (by decide) hr
    omega

/-- **Meaning of decimal text.** A text is malformed exactly if it is no numeral; a numeral of
the number `q` has the outcome of `q`, rounded half away from zero to units of `10^-11`; and
greater numbers are never read as smaller words. -/
theorem ofDecimalText_meaning :
    (∀ text : Text, (∃ literal defect, ofDecimalText text = .error (.malformed literal defect)) ↔
      ¬∃ q, Denotes text q) ∧
    (∀ (text : Text) (q : ℚ), Denotes text q →
      ReadAs (roundAway (q * 10 ^ 11)) (ofDecimalText text)) ∧
    ∀ (text text' : Text) (q q' : ℚ) (x x' : Scalar), Denotes text q → Denotes text' q' → q ≤ q' →
      ofDecimalText text = .ok x → ofDecimalText text' = .ok x' → x.raw ≤ x'.raw := by
  have read : ∀ (text : Text) (q : ℚ), Denotes text q →
      ReadAs (roundAway (q * 10 ^ 11)) (ofDecimalText text) := by
    rintro _ _ ⟨n, rfl, rfl⟩; exact ofDecimalText_readAs n
  refine ⟨fun text => ⟨?_, fun h => ?_⟩, read, ?_⟩
  · rintro ⟨literal, defect, he⟩ ⟨q, hq⟩
    have hr := read text q hq
    rw [he] at hr; exact ReadAs.not_malformed hr
  · obtain ⟨defect, he⟩ := Decimal.ofText_malformed fun n hn => h ⟨n.value, n, hn, rfl⟩
    exact ⟨text, defect, by rw [ofDecimalText, he]; rfl⟩
  · intro text text' q q' x x' hq hq' hle hx hx'
    have hr := read text q hq
    have hr' := read text' q' hq'
    rw [hx] at hr; rw [hx'] at hr'
    exact hr.raw_le hr' (Decimal.roundAway_mono (by linarith))

/-- A form that is refused, a number with twelve places, and two numbers in order. -/
theorem ofDecimalText_meaning_cases :
    (¬∃ q, Denotes ['1', '.'] q) ∧
    (Denotes "-2.000000000005".toList (-(2 + 5 / 10 ^ 12)) ∧
      ReadAs (roundAway (-(2 + 5 / 10 ^ 12) * 10 ^ 11)) (ofDecimalText "-2.000000000005".toList)) ∧
    (Denotes ['1'] 1 ∧ Denotes ['2'] 2 ∧ (ofWhole 1).raw ≤ (ofWhole 2).raw) := by
  obtain ⟨malformed, read, mono⟩ := ofDecimalText_meaning
  have h : Denotes "-2.000000000005".toList (-(2 + 5 / 10 ^ 12)) :=
    ⟨⟨true, ['2'], some "000000000005".toList, by decide, by rintro p ⟨⟩; decide⟩, by decide,
      by decide +kernel⟩
  have h1 : Denotes ['1'] 1 := ⟨⟨false, ['1'], none, by decide, nofun⟩, by decide, by decide +kernel⟩
  have h2 : Denotes ['2'] 2 := ⟨⟨false, ['2'], none, by decide, nofun⟩, by decide, by decide +kernel⟩
  refine ⟨(malformed _).mp ⟨_, _, by rfl⟩, ⟨h, read _ _ h⟩, h1, h2, ?_⟩
  exact mono _ _ _ _ _ _ h1 h2 (by norm_num) (by decide +kernel) (by decide +kernel)

end BinaryPoint.Scalar
