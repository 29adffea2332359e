import BinaryPoint.Proofs.Decimal.Canonical
import BinaryPoint.Proofs.Scalar.DecimalText
import BinaryPoint.Shell.Session

/-!
# Hex and decimal text are inverse

One step of the fraction is written as `1525878` units of `10^-11`, less than its exact weight,
so the units below each whole number leave a gap. Within a whole number the steps still have
different units, and reading cuts the units back into the same fields.

* `units_eq`: the units of a word, as one formula on the signed word.
* `ofDecimal_toDecimal`: the decimal of a word is read as that word.
* `ofHex_eq_ok`: which hex text is accepted, and as which word.
* `ofLiteral_literal`, `ofLiteral_decimalText`: both texts of a word are literals of it.
* `decimalText_inverse`: from hex to decimal text and back, and the order of decimal texts.
-/
namespace BinaryPoint.Scalar

open Decimal (Denotes IsCanonical roundAway)

/-! ## Words -/

theorem bits_lt (s : Scalar) : s.bits < 4294967296 := by
  rw [bits, wordCount]; omega

theorem ofBits_bits (s : Scalar) : ofBits s.bits = s := by
  have h := s.neg_le_raw
  have h' := s.raw_le
  refine Scalar.ext ?_
  rw [raw_ofBits, bits, wordCount]; omega

theorem bits_ofBits {n : Nat} (h : n < 4294967296) : (ofBits n).bits = n := by
  rw [bits, raw_ofBits, wordCount]; omega

/-- The whole field counts from below for negative words, so it is the floor. -/
theorem units_eq (s : Scalar) : s.units = s.raw / 65536 * 10 ^ 11 + s.raw % 65536 * 1525878 := by
  have h := s.neg_le_raw
  have h' := s.raw_le
  have hb : (s.bits : ℤ) = s.raw % 4294967296 := by rw [bits, wordCount]; omega
  unfold units wholeField fractionField unit Decimal.scale step signWeight Decimal.scale
  split <;> omega

theorem units_lt_iff (s t : Scalar) : s.units < t.units ↔ s.raw < t.raw := by
  rw [units_eq, units_eq]
  omega

/-- A word is what its own units are read as, and all units up to the next step. -/
theorem readAs_ok_iff {s : ℤ} {x : Scalar} :
    ReadAs s (.ok x) ↔ x.units ≤ s ∧ s < x.units + 1525878 := by
  have hu := x.units_eq
  constructor
  · intro h
    obtain ⟨hf, hx⟩ := h.of_ok
    omega
  · rintro ⟨hs, hs'⟩
    have hl := x.neg_le_raw
    have hr := x.raw_le
    have hf : x.raw % 65536 ≤ 65535 := by omega
    have hf' : 0 ≤ x.raw % 65536 := by omega
    -- the fraction stays below one whole, so the division gives the fields back
    have hd : s / 10 ^ 11 = x.raw / 65536 := by
      generalize x.raw % 65536 = f at *
      omega
    have hm : s % 10 ^ 11 / 1525878 = x.raw % 65536 := by
      generalize x.raw % 65536 = f at *
      omega
    exact readAs_ok (by omega) (by omega) (by rw [hd, hm]; omega)

theorem toInt_toDecimal (s : Scalar) : s.toDecimal.toInt = s.units := by
  rw [toDecimal, Decimal.toInt, Decimal.signed]
  dsimp only
  split
  · rename_i h; rw [decide_eq_true_eq] at h; omega
  · rename_i h; rw [decide_eq_true_eq] at h; omega

theorem ofDecimal_toDecimal (s : Scalar) : ofDecimal s.toDecimal = .ok s := by
  have h := ofDecimal_readAs s.toDecimal
  rw [toInt_toDecimal] at h
  exact h.eq_ok (readAs_ok_iff.mpr ⟨le_refl _, by omega⟩)

theorem ofDecimalText_decimalText (s : Scalar) : ofDecimalText s.decimalText = .ok s := by
  rw [ofDecimalText, decimalText, Decimal.ofText_render]; exact ofDecimal_toDecimal s

theorem ofCanonicalText_decimalText (s : Scalar) : ofCanonicalText s.decimalText = .ok s := by
  rw [ofCanonicalText, decimalText, Decimal.ofCanonical_render]; exact ofDecimal_toDecimal s

theorem denotes_decimalText (s : Scalar) : Denotes s.decimalText (s.units / Decimal.scale) := by
  rw [← toInt_toDecimal]; exact Decimal.denotes_render _

/-! ## Hex text -/

theorem ofHex_eq_ok {text : Text} {s : Scalar} : ofHex text = .ok s ↔
    (Text.isHexDigits (Text.dropMark '#' text).2 = true ∧ (Text.dropMark '#' text).2.length ≤ 8) ∧
      s = ofBits (Text.hexValue (Text.dropMark '#' text).2) := by
  unfold ofHex
  dsimp only
  generalize (Text.dropMark '#' text).2 = digits
  rw [Text.isHexDigits_iff]
  constructor
  · intro h
    split at h
    · cases h
    · rename_i hw
      split at h
      · cases h
      · rename_i hd
        simp only [Bool.not_eq_true, Bool.not_eq_false', List.all_eq_true] at hd
        simp only [Bool.or_eq_true, List.isEmpty_iff, decide_eq_true_eq, not_or] at hw
        rw [Text.byteLength_of_isHexDigit hd] at hw
        exact ⟨⟨⟨hw.1, hd⟩, by omega⟩, (Except.ok.inj h).symm⟩
  · rintro ⟨⟨⟨hne, hd⟩, hl⟩, rfl⟩
    rw [if_neg, if_neg]
    · simpa [List.all_eq_true] using hd
    · simp only [Bool.or_eq_true, List.isEmpty_iff, decide_eq_true_eq, not_or]
      rw [Text.byteLength_of_isHexDigit hd]
      exact ⟨hne, by omega⟩

theorem hex_ofBits_hexValue {digits : Text} (h : Text.isHexDigits digits = true)
    (hl : digits.length ≤ 8) :
    (ofBits (Text.hexValue digits)).hex = (digits.map Char.toUpper).leftpad 8 '0' := by
  have hd := (Text.isHexDigits_iff.mp h).2
  have hv : Text.hexValue digits < 4294967296 :=
    calc Text.hexValue digits < 16 ^ digits.length :=
          Text.valueIn_lt fun c hc => Text.digitValue_of_isHexDigit (hd c hc)
      _ ≤ 16 ^ 8 := Nat.pow_le_pow_right (by decide) hl
  rw [hex, bits_ofBits hv, Text.padded_hexValue hl hd]

theorem length_hex (s : Scalar) : s.hex.length = 8 := Text.length_padded 16 8 s.bits

theorem isHexDigits_hex (s : Scalar) : Text.isHexDigits s.hex = true :=
  Text.isHexDigits_iff.mpr ⟨List.length_pos_iff.mp (by rw [length_hex]; decide),
    Text.isHexDigit_of_mem_padded 8 s.bits⟩

theorem hexValue_hex (s : Scalar) : Text.hexValue s.hex = s.bits := by
  rw [Text.hexValue, hex, Text.valueIn_padded (by decide) (by decide)]
  exact Nat.mod_eq_of_lt s.bits_lt

/-! ## Literals -/

theorem ofHex_literal (s : Scalar) : ofHex s.literal = .ok s := by
  refine ofHex_eq_ok.mpr ⟨⟨s.isHexDigits_hex, s.length_hex.le⟩, ?_⟩
  change s = ofBits (Text.hexValue s.hex)
  rw [hexValue_hex, ofBits_bits]

theorem ofLiteral_literal (s : Scalar) : ofLiteral s.literal = .ok s := by
  rw [ofLiteral, if_pos (by rfl)]
  exact s.ofHex_literal

theorem ofLiteral_decimalText (s : Scalar) : ofLiteral s.decimalText = .ok s := by
  have h : s.decimalText.head? ≠ some '#' := by
    obtain ⟨m, hm, -⟩ := denotes_decimalText s
    rw [← hm]
    exact fun e => m.mark_not_mem_text (List.mem_of_head? e)
  rw [ofLiteral, if_neg h]
  exact ofDecimalText_decimalText s

/-! ## Both ways -/

/-- **Inverse texts.** Exactly one to eight hex digits, perhaps behind a mark, are accepted. Their
decimal text is canonical, and it leads back to the same digits, as capitals and padded with
zeros, through the free reader and through the strict one. The decimal texts of two words denote
numbers in the order of the words. -/
theorem decimalText_inverse :
    (∀ text : Text, let digits := (Text.dropMark '#' text).2
      ((∃ s, ofHex text = .ok s) ↔ Text.isHexDigits digits = true ∧ digits.length ≤ 8) ∧
      ∀ s, ofHex text = .ok s → ∃ decimal,
        Outcome.toDecimal text = .result decimal (.string decimal) ∧ IsCanonical decimal ∧
        let hex := (digits.map Char.toUpper).leftpad 8 '0'
        Outcome.toHex decimal = .result hex (.string hex) ∧
          (ofCanonicalText decimal).map Scalar.hex = .ok hex) ∧
    (∀ s : Scalar, ∃ q, Denotes s.decimalText q) ∧
    ∀ (s t : Scalar) (q r : ℚ), Denotes s.decimalText q → Denotes t.decimalText r →
      (q < r ↔ s.raw < t.raw) := by
  refine ⟨fun text => ?_, fun s => ⟨_, denotes_decimalText s⟩, fun s t q r hq hr => ?_⟩
  · refine ⟨⟨fun ⟨s, h⟩ => (ofHex_eq_ok.mp h).1, fun h => ⟨_, ofHex_eq_ok.mpr ⟨h, rfl⟩⟩⟩,
      fun s h => ⟨s.decimalText, ?_, Decimal.isCanonical_render _, ?_, ?_⟩⟩
    · rw [Outcome.toDecimal, h]; rfl
    · obtain ⟨⟨hd, hl⟩, rfl⟩ := ofHex_eq_ok.mp h
      rw [Outcome.toHex, ofDecimalText_decimalText, ← hex_ofBits_hexValue hd hl]; rfl
    · obtain ⟨⟨hd, hl⟩, rfl⟩ := ofHex_eq_ok.mp h
      rw [ofCanonicalText_decimalText, ← hex_ofBits_hexValue hd hl]; rfl
  · have hs0 : (0 : ℚ) < Decimal.scale := by norm_num [Decimal.scale]
    rw [hq.unique (denotes_decimalText s), hr.unique (denotes_decimalText t),
      div_lt_div_iff_of_pos_right hs0, Int.cast_lt, units_lt_iff]

/-- Seven digits of both cases, and zero before one. -/
theorem decimalText_inverse_seven_digits :
    let text : Text := "#e7cA8c1".toList
    let hex : Text := "0E7CA8C1".toList
    (∃ s, ofHex text = .ok s) ∧
    (∃ decimal, Outcome.toDecimal text = .result decimal (.string decimal) ∧
      Outcome.toHex decimal = .result hex (.string hex)) ∧
    ∃ q r, Denotes zero.decimalText q ∧ Denotes one.decimalText r ∧ q < r := by
  intro text hex
  obtain ⟨inverse, denotes, order⟩ := decimalText_inverse
  obtain ⟨s, hs⟩ := (inverse text).1.mpr (by decide)
  obtain ⟨decimal, hd, _, hh, _⟩ := (inverse text).2 s hs
  obtain ⟨q, hq⟩ := denotes zero
  obtain ⟨r, hr⟩ := denotes one
  exact ⟨⟨s, hs⟩, ⟨decimal, hd, hh⟩, q, r, hq, hr, (order zero one q r hq hr).mpr (by decide)⟩

end BinaryPoint.Scalar
