import BinaryPoint.Proofs.Decimal.Rounding

/-!
# Canonical decimal text

A numeral is canonical if it has five whole digits and eleven places. Nothing is rounded then,
and the strict reader and the free one agree on it. The text of each decimal is canonical and
is read as that decimal.

* `ofCanonical_numeral`: the strict reader on a canonical numeral.
* `Decimal.numeral`, `numeral_value`: the numeral that a decimal is written as.
* `ofText_render`: the text of a decimal reads back.
* `isCanonical_iff_render`, `ofCanonical_malformed`: the texts of decimals are all the canonical
  ones, and the strict reader refuses the others for their form.
-/
namespace BinaryPoint.Decimal

/-- Five digits before the point and eleven behind it. -/
def Numeral.IsCanonical (n : Numeral) : Prop :=
  n.whole.length = 5 ∧ ∃ p, n.places = some p ∧ p.length = 11

/-- Text in the layout `[-]IIIII.FFFFFFFFFFF`. -/
def IsCanonical (text : Text) : Prop := ∃ n : Numeral, n.IsCanonical ∧ n.text = text

theorem ofCanonical_numeral {n : Numeral} (h : n.IsCanonical) :
    ofCanonical n.text = ofText n.text := by
  obtain ⟨hw, p, hp, hl⟩ := h
  have hdw := (Text.isDigits_iff.mp n.whole_digits).2
  have hdp := (Text.isDigits_iff.mp (n.places_digits p (by rw [hp]; rfl))).2
  have ne_point : ∀ c : Char, Text.isDigit c = true → (c == '.') = false := by
    intro c hc
    rw [beq_eq_false_iff_ne]
    rintro rfl; revert hc; decide
  have hb : n.body = n.whole ++ '.' :: p := by rw [Numeral.body, hp]
  have hs : Text.splitWhen (· == '.') n.body = [n.whole, p] := by
    rw [hb]
    exact Text.splitWhen_pair (fun c hc => ne_point c (hdw c hc)) (by decide)
      fun c hc => ne_point c (hdp c hc)
  rw [ofText_numeral, hp, ofCanonical, n.dropMark_text]
  simp [hs, hw, hl, List.all_eq_true.mpr hdw, List.all_eq_true.mpr hdp]

/-! ## The text of a decimal -/

theorem isDigits_of_length {digits : Text} {k : Nat} (hl : digits.length = k + 1)
    (hd : ∀ c ∈ digits, Text.isDigit c = true) : Text.isDigits digits = true :=
  Text.isDigits_iff.mpr ⟨List.ne_nil_of_length_eq_add_one hl, hd⟩

theorem isDigits_padded (width n : Nat) : Text.isDigits (Text.padded 10 (width + 1) n) = true :=
  isDigits_of_length (Text.length_padded 10 (width + 1) n) (Text.isDigit_of_mem_padded _ _)

/-- The numeral that a decimal is written as. -/
def numeral (d : Decimal) : Numeral where
  negative := d.negative
  whole := Text.padded 10 5 (d.units / scale)
  places := some (Text.padded 10 11 (d.units % scale))
  whole_digits := isDigits_padded _ _
  places_digits := by rintro p ⟨⟩; exact isDigits_padded _ _

theorem numeral_text (d : Decimal) : d.numeral.text = d.render := by
  rw [Numeral.text, render, List.append_assoc, List.append_assoc]; rfl

theorem numeral_isCanonical (d : Decimal) : d.numeral.IsCanonical :=
  ⟨Text.length_padded _ _ _, _, rfl, Text.length_padded _ _ _⟩

theorem decimalValue_padded {width n : Nat} (h : n < 10 ^ width) :
    Text.decimalValue (Text.padded 10 width n) = n := by
  rw [Text.decimalValue, Text.valueIn_padded (by decide) (by decide), Nat.mod_eq_of_lt h]

theorem fractionValue_padded {width n : Nat} (h : n < 10 ^ width) :
    fractionValue (Text.padded 10 width n) = n / 10 ^ width := by
  have hz : fractionValue [] = 0 := rfl
  have hf := fractionValue_append (Text.padded 10 width n) []
  rwa [List.append_nil, decimalValue_padded h, Text.length_padded, hz, add_zero] at hf

theorem numeral_magnitude (d : Decimal) : d.numeral.magnitude = d.units / scale := by
  have hw : d.units / scale < 10 ^ 5 := by
    have := d.units_lt
    unfold scale; omega
  have hp : d.units % scale < 10 ^ 11 := Nat.mod_lt _ (by decide)
  have hs : (10 ^ 11 : ℚ) = scale := by norm_num [scale]
  have hd := Nat.div_add_mod d.units scale
  have hs0 : (scale : ℚ) ≠ 0 := by norm_num [scale]
  rw [Numeral.magnitude, numeral, Option.getD_some, decimalValue_padded hw,
    fractionValue_padded hp, hs, eq_div_iff hs0, add_mul, div_mul_cancel₀ _ hs0]
  calc ((d.units / scale : Nat) : ℚ) * scale + (d.units % scale : Nat)
      = (scale * (d.units / scale) + d.units % scale : Nat) := by push_cast; ring
    _ = d.units := by rw [hd]

theorem numeral_value (d : Decimal) : d.numeral.value = d.toInt / scale := by
  rw [Numeral.value, numeral_magnitude, toInt, signed, numeral]
  cases d.negative
  · rw [if_neg Bool.false_ne_true, if_neg Bool.false_ne_true]; push_cast; rfl
  · rw [if_pos rfl, if_pos rfl]; push_cast; ring

theorem numeral_units (d : Decimal) : d.numeral.units = d.units := by
  have h := d.numeral.units_eq
  have hs0 : (scale : ℚ) ≠ 0 := by norm_num [scale]
  have hf : ⌊(d.units : ℚ) + 1 / 2⌋ = d.units := by
    rw [Int.floor_natCast_add]; norm_num
  rw [numeral_magnitude, div_mul_cancel₀ _ hs0, hf] at h
  exact_mod_cast h

theorem denotes_render (d : Decimal) : Denotes d.render (d.toInt / scale) :=
  ⟨d.numeral, numeral_text d, numeral_value d⟩

theorem isCanonical_render (d : Decimal) : IsCanonical d.render :=
  ⟨d.numeral, numeral_isCanonical d, numeral_text d⟩

theorem ofText_render (d : Decimal) : ofText d.render = .ok d := by
  have h := (ofText_units d.numeral).1 (by rw [numeral_units]; exact d.units_lt)
  rw [← numeral_text, h]
  exact congrArg Except.ok (Decimal.ext rfl (numeral_units d))

theorem ofCanonical_render (d : Decimal) : ofCanonical d.render = .ok d := by
  rw [← ofText_render, ← numeral_text, ofCanonical_numeral (numeral_isCanonical d)]

/-! ## All canonical text -/

/-- The digits of a canonical numeral, cut off and padded again, are the same digits. -/
theorem Numeral.IsCanonical.exists_decimal {n : Numeral} (h : n.IsCanonical) :
    ∃ d : Decimal, d.numeral = n := by
  obtain ⟨hw, p, hp, hl⟩ := h
  have hdw := (Text.isDigits_iff.mp n.whole_digits).2
  have hdp := (Text.isDigits_iff.mp (n.places_digits p (by rw [hp]; rfl))).2
  have hwv := Text.decimalValue_lt hdw
  have hpv := Text.decimalValue_lt hdp
  have hpw := Text.padded_decimalValue_self hdw
  have hpp := Text.padded_decimalValue_self hdp
  rw [hw] at hwv hpw
  rw [hl] at hpv hpp
  have hdiv : (Text.decimalValue n.whole * scale + Text.decimalValue p) / scale =
      Text.decimalValue n.whole := by unfold scale; omega
  have hmod : (Text.decimalValue n.whole * scale + Text.decimalValue p) % scale =
      Text.decimalValue p := by unfold scale; omega
  have hu : Text.decimalValue n.whole * scale + Text.decimalValue p < 10000000000000000 := by
    unfold scale; omega
  generalize Text.decimalValue n.whole * scale + Text.decimalValue p = units at hdiv hmod hu
  refine ⟨⟨n.negative, units, hu⟩, Numeral.ext rfl ?_ ?_⟩
  · show Text.padded 10 5 (units / scale) = n.whole
    rw [hdiv, hpw]
  · show some (Text.padded 10 11 (units % scale)) = n.places
    rw [hmod, hpp, hp]

theorem isCanonical_iff_render {text : Text} : IsCanonical text ↔ ∃ d : Decimal, d.render = text := by
  constructor
  · rintro ⟨n, hn, rfl⟩
    obtain ⟨d, rfl⟩ := hn.exists_decimal
    exact ⟨d, d.numeral_text.symm⟩
  · rintro ⟨d, rfl⟩
    exact isCanonical_render d

theorem isCanonical_of_pieces {text body whole places : Text} {negative : Bool}
    (hd : Text.dropMark '-' text = (negative, body))
    (hs : Text.splitWhen (· == '.') body = [whole, places])
    (hw : whole.length = 5 ∧ ∀ c ∈ whole, Text.isDigit c = true)
    (hp : places.length = 11 ∧ ∀ c ∈ places, Text.isDigit c = true) : IsCanonical text := by
  have hb : body = whole ++ '.' :: places := by
    have := Text.join_splitWhen '.' body
    rw [hs, Text.join_cons _ _ (List.cons_ne_nil _ _), Text.join_singleton] at this
    exact this.symm
  refine ⟨⟨negative, whole, some places, isDigits_of_length hw.1 hw.2, fun p hm => ?_⟩,
    ⟨hw.1, places, rfl, hp.1⟩, ?_⟩
  · rw [← Option.mem_some_iff.mp hm]
    exact isDigits_of_length hp.1 hp.2
  · rw [text_eq_of_dropMark hd, hb]
    rfl

/-- A text in another layout is malformed. -/
theorem ofCanonical_malformed {text : Text} (h : ¬IsCanonical text) :
    ∃ defect, ofCanonical text = .error (.malformed text defect) := by
  obtain ⟨negative, body, hd⟩ : ∃ negative body, Text.dropMark '-' text = (negative, body) :=
    ⟨_, _, rfl⟩
  simp only [ofCanonical, hd]
  split
  · rename_i whole places hs
    split
    · exact ⟨_, rfl⟩
    · rename_i hw
      split
      · exact ⟨_, rfl⟩
      · rename_i hp
        exact absurd (isCanonical_of_pieces hd hs (by simpa using hw) (by simpa using hp)) h
  · exact ⟨_, rfl⟩

end BinaryPoint.Decimal
