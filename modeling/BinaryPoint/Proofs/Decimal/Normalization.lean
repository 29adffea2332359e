import BinaryPoint.Proofs.Decimal.Canonical
import BinaryPoint.Scalar.Literal

/-!
# Free decimal text made canonical

Free text is normalised by reading it as a decimal and writing that. Canonical texts are the texts
of decimals, so they stay as they are, and reading free text as a scalar is the strict reader
behind the normaliser.

* `normalize_numeral`: the canonical text of a numeral, by its units.
* `normalize_canonical`: canonical text is kept.
* `ofDecimalText_eq`: the free reader of scalars, from the normaliser and the strict reader.
* `normalize_meaning`: the outcome for every text, and what the strict reader makes of it.
-/
namespace BinaryPoint.Decimal

/-- The canonical text of free decimal text. -/
def normalize (text : Text) : Except NumberError Text := (ofText text).map render

/-! ## Canonical text -/

theorem normalize_render (d : Decimal) : normalize d.render = .ok d.render := by
  rw [normalize, ofText_render]
  rfl

theorem exists_render_of_normalize {text canonical : Text} (h : normalize text = .ok canonical) :
    ∃ d : Decimal, d.render = canonical := by
  rw [normalize] at h
  cases hd : ofText text with
  | error e => rw [hd] at h; cases h
  | ok d => rw [hd] at h; exact ⟨d, Except.ok.inj h⟩

theorem normalize_canonical {text : Text} (h : IsCanonical text) : normalize text = .ok text := by
  obtain ⟨d, rfl⟩ := isCanonical_iff_render.mp h
  exact normalize_render d

/-- Reading free text as a scalar is strict reading of its canonical text. -/
theorem ofDecimalText_eq (text : Text) :
    Scalar.ofDecimalText text = normalize text >>= Scalar.ofCanonicalText := by
  rw [Scalar.ofDecimalText, normalize]
  cases ofText text with
  | error e => rfl
  | ok d =>
    show Scalar.ofDecimal d = ofCanonical d.render >>= Scalar.ofDecimal
    rw [ofCanonical_render]
    rfl

/-! ## The outcome for every text -/

/-- The magnitude of `q`, rounded half up to a multiple of `10^-11`. -/
def roundedMagnitude (q : ℚ) : ℚ := ⌊|q| * 10 ^ 11 + 1 / 2⌋ / 10 ^ 11

namespace Numeral

theorem head?_text (n : Numeral) : n.text.head? = some '-' ↔ n.negative = true := by
  have h := n.dropMark_text
  cases ht : n.text with
  | nil =>
    rw [ht] at h
    simp [← (Prod.mk.inj h).1]
  | cons c rest =>
    rw [ht, Text.dropMark] at h
    split at h <;> rename_i hc <;> simp [hc, ← (Prod.mk.inj h).1]

theorem abs_value (n : Numeral) : |n.value| = n.magnitude := by
  rw [value]
  split
  · rw [abs_neg, abs_of_nonneg n.magnitude_nonneg]
  · exact abs_of_nonneg n.magnitude_nonneg

theorem roundedMagnitude_value (n : Numeral) : roundedMagnitude n.value = n.units / scale := by
  have hs : (10 ^ 11 : ℚ) = scale := by norm_num [scale]
  rw [roundedMagnitude, n.abs_value, hs, ← n.units_eq, Int.cast_natCast]

theorem units_lt_iff (n : Numeral) :
    n.units < 10000000000000000 ↔ roundedMagnitude n.value < 100000 := by
  rw [roundedMagnitude_value, div_lt_iff₀ (by norm_num [scale]), scale]
  norm_num

theorem denotes_render (n : Numeral) (h : n.units < 10000000000000000) :
    Denotes (render ⟨n.negative, n.units, h⟩)
      (if n.text.head? = some '-' then -roundedMagnitude n.value else roundedMagnitude n.value) := by
  have hd := Decimal.denotes_render ⟨n.negative, n.units, h⟩
  have hv : ((toInt ⟨n.negative, n.units, h⟩ : ℤ) : ℚ) / scale =
      if n.text.head? = some '-' then -roundedMagnitude n.value else roundedMagnitude n.value := by
    simp only [n.head?_text, n.roundedMagnitude_value, toInt, signed]
    split
    · push_cast
      ring
    · push_cast
      rfl
  rwa [hv] at hd

end Numeral

theorem normalize_malformed {text : Text} (h : ∀ n : Numeral, n.text ≠ text) :
    ∃ defect, normalize text = .error (.malformed text defect) := by
  obtain ⟨defect, he⟩ := ofText_malformed h
  exact ⟨defect, by rw [normalize, he]; rfl⟩

theorem normalize_numeral (n : Numeral) :
    (roundedMagnitude n.value < 100000 ∧
      ∃ h, normalize n.text = .ok (render ⟨n.negative, n.units, h⟩)) ∨
    (100000 ≤ roundedMagnitude n.value ∧ ∃ v, normalize n.text = .error (.wholeRange v)) := by
  obtain ⟨hok, herr⟩ := ofText_units n
  by_cases h : n.units < 10000000000000000
  · exact .inl ⟨n.units_lt_iff.mp h, h, by rw [normalize, hok h]; rfl⟩
  · obtain ⟨v, hv⟩ := herr (not_lt.mp h)
    exact .inr ⟨not_lt.mp fun hm => h (n.units_lt_iff.mpr hm), v, by rw [normalize, hv]; rfl⟩

theorem head?_render (d : Decimal) : d.render.head? = some '-' ↔ d.negative = true := by
  rw [← d.numeral_text, d.numeral.head?_text]
  rfl

/-- **Normalisation.** A text is malformed exactly if it is no numeral. A numeral is refused
exactly if its rounded magnitude has more than five whole digits; otherwise its canonical text
denotes that magnitude, with the sign in front that the text has. Normalising again, or normalising
canonical text, changes nothing. So the strict reader refuses every other text for its form, and on
canonical text it is the free reader. -/
theorem normalize_meaning :
    (∀ text : Text, (∃ literal defect, normalize text = .error (.malformed literal defect)) ↔
      ¬∃ q, Denotes text q) ∧
    (∀ (text : Text) (q : ℚ), Denotes text q →
      ((∃ v, normalize text = .error (.wholeRange v)) ↔ 100000 ≤ roundedMagnitude q) ∧
      (roundedMagnitude q < 100000 → ∃ canonical, normalize text = .ok canonical ∧
        IsCanonical canonical ∧
        Denotes canonical (if text.head? = some '-' then -roundedMagnitude q
          else roundedMagnitude q) ∧
        (canonical.head? = some '-' ↔ text.head? = some '-'))) ∧
    (∀ text canonical : Text, normalize text = .ok canonical →
      normalize canonical = .ok canonical) ∧
    (∀ text : Text, IsCanonical text → normalize text = .ok text) ∧
    ∀ text : Text,
      (¬IsCanonical text →
        ∃ defect, Scalar.ofCanonicalText text = .error (.malformed text defect)) ∧
      (IsCanonical text → Scalar.ofCanonicalText text = Scalar.ofDecimalText text) := by
  refine ⟨fun text => ⟨?_, fun h => ?_⟩, ?_, fun text canonical h => ?_,
    fun _ => normalize_canonical, fun text => ⟨fun h => ?_, fun h => ?_⟩⟩
  · rintro ⟨literal, defect, he⟩ ⟨_, n, rfl, rfl⟩
    rcases normalize_numeral n with ⟨_, _, hn⟩ | ⟨_, v, hn⟩ <;> rw [he] at hn <;> cases hn
  · obtain ⟨defect, he⟩ := normalize_malformed fun n hn => h ⟨n.value, n, hn, rfl⟩
    exact ⟨text, defect, he⟩
  · rintro _ _ ⟨n, rfl, rfl⟩
    rcases normalize_numeral n with ⟨hm, hu, hn⟩ | ⟨hm, v, hn⟩
    · refine ⟨⟨?_, fun h => absurd hm (not_lt.mpr h)⟩, fun _ => ⟨_, hn, isCanonical_render _,
        n.denotes_render hu, ?_⟩⟩
      · rintro ⟨v, he⟩
        rw [he] at hn; cases hn
      · rw [head?_render, n.head?_text]
    · exact ⟨⟨fun _ => hm, fun _ => ⟨v, hn⟩⟩, fun h => absurd h (not_lt.mpr hm)⟩
  · obtain ⟨d, rfl⟩ := exists_render_of_normalize h
    exact normalize_render d
  · obtain ⟨defect, he⟩ := ofCanonical_malformed h
    exact ⟨defect, by rw [Scalar.ofCanonicalText, he]; rfl⟩
  · rw [ofDecimalText_eq, normalize_canonical h]
    rfl

/-- A carry through all places below zero, one that is too great, and text of both layouts. -/
theorem normalize_meaning_carry :
    let text : Text := "-9.999999999995".toList
    let q : ℚ := -(9 + 999999999995 / 10 ^ 12)
    let great : Text := "99999.999999999995".toList
    let r : ℚ := 99999 + 999999999995 / 10 ^ 12
    let free : Text := "01.5".toList
    let canonical : Text := "00001.50000000000".toList
    (Denotes text q ∧ roundedMagnitude q = 10 ∧ ∃ t, normalize text = .ok t ∧ IsCanonical t ∧
      Denotes t (-10) ∧ t.head? = some '-') ∧
    (Denotes great r ∧ 100000 ≤ roundedMagnitude r ∧ ∃ v, normalize great = .error (.wholeRange v)) ∧
    (normalize free = .ok canonical ∧ normalize canonical = .ok canonical) ∧
    (¬IsCanonical free ∧
      ∃ defect, Scalar.ofCanonicalText free = .error (.malformed free defect)) ∧
    IsCanonical canonical ∧ Scalar.ofCanonicalText canonical = Scalar.ofDecimalText canonical := by
  intro text q great r free canonical
  obtain ⟨-, numeral, idempotent, kept, strict⟩ := normalize_meaning
  have hq : Denotes text q :=
    ⟨⟨true, ['9'], some "999999999995".toList, by decide, by rintro p ⟨⟩; decide⟩, by decide,
      by decide +kernel⟩
  have hr : Denotes great r :=
    ⟨⟨false, "99999".toList, some "999999999995".toList, by decide, by rintro p ⟨⟩; decide⟩,
      by decide, by decide +kernel⟩
  have hqm : roundedMagnitude q = 10 := by decide +kernel
  have hrm : 100000 ≤ roundedMagnitude r := by decide +kernel
  have hf : normalize free = .ok canonical := by decide +kernel
  have hc : IsCanonical canonical :=
    ⟨⟨false, "00001".toList, some "50000000000".toList, by decide, by rintro p ⟨⟩; decide⟩,
      ⟨rfl, _, rfl, rfl⟩, rfl⟩
  have hn : ¬IsCanonical free := by
    intro h
    have := hf.symm.trans (kept free h)
    revert this
    decide
  obtain ⟨t, ht, htc, htd, hts⟩ := (numeral text q hq).2 (by rw [hqm]; norm_num)
  rw [if_pos (by decide), hqm] at htd
  exact ⟨⟨hq, hqm, t, ht, htc, htd, hts.mpr (by decide)⟩, ⟨hr, hrm, (numeral great r hr).1.mpr hrm⟩,
    ⟨hf, idempotent free canonical hf⟩, ⟨hn, (strict free).1 hn⟩, hc, (strict canonical).2 hc⟩

end BinaryPoint.Decimal
