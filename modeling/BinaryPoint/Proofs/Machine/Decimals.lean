import Mathlib.Data.Nat.Bitwise
import BinaryPoint.Proofs.Decimal.Normalization
import BinaryPoint.Proofs.Scalar.HexText
import BinaryPoint.Proofs.Machine.Arithmetic

/-!
# Decimals in machine words

The readers check how many digits there are before they compute with them, so every number on the
way is bounded: a whole part has five digits when it is read and a fraction eleven, and both
together are below `10^16` units.

* `normalize`, `encode`, `decode`: free text made canonical, canonical text as a word, and a word
  as canonical text, step by step.
* `normalize_eq`, `encode_eq`, `decode_eq`: where an arithmetic keeps what fits, they compute
  `Decimal.normalize`, `Scalar.ofCanonicalText` and `Scalar.decimalText`.
-/
namespace BinaryPoint.Machine

open Decimal (scale)

variable {m : Type → Type} [Monad m] {A : Arithmetic m}

/-! ## Free text -/

/-- The twelfth place is at least five. -/
def roundsUp (places : Text) : Bool :=
  match places.drop 11 with
  | [] => false
  | next :: _ => '5' ≤ next

/-- The first eleven places as a number of eleven digits. -/
def keptUnits (A : Arithmetic m) (places : Text) : m ℤ := do
  let kept := places.take 11
  let missing ← A.bits (11 - kept.length : ℕ)
  A.long ((← digitsValue A kept) * (← A.long (10 ^ missing.toNat)))

/-- The whole part and the fraction with one more unit, which may carry over. -/
def carry (A : Arithmetic m) (whole fraction : ℤ) : m (ℤ × ℤ) := do
  let fraction ← A.long (fraction + 1)
  if fraction = scale then return (← A.long (whole + 1), 0) else return (whole, fraction)

/-- The whole part and the fraction, rounded to eleven places. -/
def roundPlaces (A : Arithmetic m) (whole : ℤ) (places : Text) : m (ℤ × ℤ) := do
  let fraction ← keptUnits A places
  if roundsUp places then carry A whole fraction else return (whole, fraction)

/-- Canonical text of the given runs of digits. A whole part that no word holds is read as the
greatest word. -/
def normalizeDigits (A : Arithmetic m) (negative : Bool) (whole places : Text) :
    m (Except NumberError Text) := do
  let significant := whole.dropWhile (· = '0')
  if 5 < significant.length then
    let value : ℕ := min (Text.decimalValue significant) Decimal.reportable
    return .error (.wholeRange (← signed A negative value))
  else
    let (value, fraction) ← roundPlaces A (← digitsValue A significant) places
    if 99999 < value then return .error (.wholeRange (← signed A negative value))
    else return .ok ((if negative then ['-'] else []) ++ zeroPadded 5 value ++ ['.']
      ++ zeroPadded 11 fraction)

/-- Canonical text of free decimal text. -/
def normalize (A : Arithmetic m) (text : Text) : m (Except NumberError Text) :=
  let (negative, body) := Text.dropMark '-' text
  match Text.cutAt '.' body with
  | some (whole, places) =>
    if !Text.isDigits places then pure (.error (.malformed text .fractionDigits))
    else if !Text.isDigits whole then pure (.error (.malformed text .wholeDigits))
    else normalizeDigits A negative whole places
  | none =>
    if !Text.isDigits body then pure (.error (.malformed text .wholeDigits))
    else normalizeDigits A negative body []

theorem roundsUp_iff {places : Text} (hp : ∀ c ∈ places, Text.isDigit c = true) :
    roundsUp places = true ↔ 5 ≤ Text.digitValue ((places.drop 11).headD '0') := by
  unfold roundsUp
  split
  · rename_i hd
    rw [hd]
    decide
  · rename_i next rest hd
    have hm : next ∈ places.drop 11 := by
      rw [hd]
      exact List.mem_cons_self
    have hn : Text.isDigit next = true := hp next (List.mem_of_mem_drop hm)
    rw [hd, List.headD_cons, decide_eq_true_eq]
    exact Text.of_isDigit hn (by decide)

theorem decimalValue_kept_lt {places : Text} (hp : ∀ c ∈ places, Text.isDigit c = true) :
    Text.decimalValue ((places.take 11).rightpad 11 '0') < scale := by
  have hd : ∀ c ∈ (places.take 11).rightpad 11 '0', Text.isDigit c = true := by
    intro c hc
    rcases List.mem_append.mp hc with hc | hc
    · exact hp c (List.mem_of_mem_take hc)
    · rw [List.eq_of_mem_replicate hc]
      rfl
  have hl : ((places.take 11).rightpad 11 '0').length = 11 := by
    rw [List.length_rightpad, List.length_take]
    omega
  have hlt := Text.decimalValue_lt hd
  rwa [hl] at hlt

/-- The kept places are filled up by a product, as they are by zeros. -/
theorem keptUnits_eq [LawfulMonad m] (h : A.Keeps) {places : Text}
    (hp : ∀ c ∈ places, Text.isDigit c = true) :
    keptUnits A places = pure (Text.decimalValue ((places.take 11).rightpad 11 '0') : ℤ) := by
  have hk : ∀ c ∈ places.take 11, Text.isDigit c = true := fun c hc =>
    hp c (List.mem_of_mem_take hc)
  have hl : (places.take 11).length ≤ 11 := List.length_take_le _ _
  have hlt := decimalValue_kept_lt hp
  unfold keptUnits
  dsimp only
  rw [List.rightpad, Text.decimalValue_append_zeros, scale] at hlt
  rw [List.rightpad, Text.decimalValue_append_zeros]
  generalize places.take 11 = kept at *
  have hpow : 10 ^ (11 - kept.length) ≤ 10 ^ 11 := Nat.pow_le_pow_right (by decide) (Nat.sub_le _ _)
  have hc : ((10 : ℤ) ^ (11 - kept.length)) = (10 ^ (11 - kept.length) : ℕ) := by push_cast; rfl
  rw [h.bits (by omega) (by omega), pure_bind, digitsValue_eq h hk (by omega), pure_bind,
    Int.toNat_natCast, hc]
  -- the bound is on the product, so the power itself need not be known
  generalize 10 ^ (11 - kept.length) = power at *
  rw [h.long_bind (by omega), ← Nat.cast_mul, h.long (by omega) (by omega)]

theorem carry_eq [LawfulMonad m] (h : A.Keeps) {whole fraction : ℕ} (hw : whole ≤ 99999)
    (hf : fraction < scale) : carry A whole fraction =
      pure ((((whole * scale + (fraction + 1)) / scale : ℕ) : ℤ),
        (((whole * scale + (fraction + 1)) % scale : ℕ) : ℤ)) := by
  unfold carry
  unfold scale at *
  rw [h.long_bind (by omega)]
  split
  · rw [h.long_bind (by omega)]
    congr 2 <;> omega
  · congr 2 <;> omega

/-- The carry is the one that counting whole units and places together makes. -/
theorem roundPlaces_eq [LawfulMonad m] (h : A.Keeps) {whole : ℕ} (hw : whole ≤ 99999)
    {places : Text} (hp : ∀ c ∈ places, Text.isDigit c = true) : roundPlaces A whole places =
      pure ((((whole * scale + Decimal.placesUnits places) / scale : ℕ) : ℤ),
        (((whole * scale + Decimal.placesUnits places) % scale : ℕ) : ℤ)) := by
  have hlt := decimalValue_kept_lt hp
  rw [roundPlaces, keptUnits_eq h hp, pure_bind, Decimal.placesUnits]
  by_cases hr : roundsUp places = true
  · rw [if_pos hr, if_pos ((roundsUp_iff hp).mp hr), carry_eq h hw hlt]
  · rw [if_neg hr, if_neg (mt (roundsUp_iff hp).mpr hr)]
    unfold scale at *
    congr 2 <;> omega

theorem placesUnits_le {places : Text} (hp : ∀ c ∈ places, Text.isDigit c = true) :
    Decimal.placesUnits places ≤ scale := by
  have hlt := decimalValue_kept_lt hp
  unfold Decimal.placesUnits
  dsimp only
  split <;> omega

theorem normalizeDigits_eq [LawfulMonad m] (h : A.Keeps) (negative : Bool) {whole places : Text}
    (hw : ∀ c ∈ whole, Text.isDigit c = true) (hp : ∀ c ∈ places, Text.isDigit c = true) :
    normalizeDigits A negative whole places =
      pure ((Decimal.ofDigits negative whole places).map Decimal.render) := by
  have hs : ∀ c ∈ whole.dropWhile (· = '0'), Text.isDigit c = true := fun c hc =>
    hw c ((List.dropWhile_sublist _).mem hc)
  have hl := Text.length_dropWhile_le_iff hw 5
  unfold normalizeDigits Decimal.ofDigits
  dsimp only
  by_cases hv : 99999 < Text.decimalValue whole
  · rw [if_pos hv, if_pos (by omega), Text.decimalValue_dropWhile,
      signed_eq h negative (Nat.min_le_right _ Decimal.reportable), pure_bind]
    rfl
  · have hd := digitsValue_eq h hs (by omega)
    rw [Text.decimalValue_dropWhile] at hd
    rw [if_neg hv, if_neg (by omega), hd, pure_bind, roundPlaces_eq h (by omega) hp, pure_bind]
    dsimp only
    have hm : Text.decimalValue whole * scale + Decimal.placesUnits places ≤ 100000 * scale := by
      have := placesUnits_le hp
      unfold scale at *
      omega
    generalize Text.decimalValue whole * scale + Decimal.placesUnits places = units at hm ⊢
    have hu : 99999 < units / scale ↔ ¬units < 10000000000000000 := by
      unfold scale
      omega
    have hf : units % scale < 10 ^ 11 := Nat.mod_lt _ (by decide)
    by_cases hlt : units < 10000000000000000
    · rw [dif_pos hlt, if_neg (by omega), zeroPadded_natCast (by decide) (by omega),
        zeroPadded_natCast (by decide) hf]
      rfl
    · rw [dif_neg hlt, if_pos (by omega), signed_eq h negative (by unfold scale at *; omega),
        pure_bind]
      rfl

theorem normalize_eq [LawfulMonad m] (h : A.Keeps) (text : Text) :
    normalize A text = pure (Decimal.normalize text) := by
  unfold normalize Decimal.normalize Decimal.ofText
  obtain ⟨negative, body⟩ := Text.dropMark '-' text
  dsimp only
  cases Text.cutAt '.' body with
  | none =>
    dsimp only
    by_cases hb : Text.isDigits body = true
    · simp only [hb, Bool.not_true, Bool.false_eq_true, if_false]
      exact normalizeDigits_eq h negative (Text.isDigits_iff.mp hb).2 (List.forall_mem_nil _)
    · simp only [hb]
      rfl
  | some parts =>
    obtain ⟨whole, places⟩ := parts
    dsimp only
    by_cases hp : Text.isDigits places = true
    · by_cases hw : Text.isDigits whole = true
      · simp only [hp, hw, Bool.not_true, Bool.false_eq_true, if_false]
        exact normalizeDigits_eq h negative (Text.isDigits_iff.mp hw).2 (Text.isDigits_iff.mp hp).2
      · simp only [hp, hw]
        rfl
    · simp only [hp]
      rfl

/-! ## Canonical text -/

/-- The word with the given sign bit and the fields of a scaled number. -/
def pack (A : Arithmetic m) (negative : Bool) (scaled : ℤ) : m (Except NumberError ℕ) := do
  let whole ← A.long (scaled.tdiv scale)
  let fraction ← A.long ((← A.long (scaled.tmod scale)).tdiv Scalar.step)
  if 32767 < whole then return .error (.wholeRange whole)
  else if 65535 < fraction then return .error (.fractionRange fraction)
  else
    let high ← A.bits ((← A.bits whole).toNat <<< 16 : ℕ)
    let low ← A.bits fraction
    let fields := high.toNat ||| low.toNat
    return .ok (if negative then fields ||| 0x80000000 else fields)

/-- The word of a magnitude. Negative numbers count up from the offset of the sign bit. -/
def compose (A : Arithmetic m) (negative : Bool) (magnitude : ℤ) : m (Except NumberError ℕ) := do
  let scaled ← if negative then A.long (Scalar.signWeight - magnitude) else pure magnitude
  if scaled < 0 then
    return .error (.wholeRange (← A.long (-(← A.long (magnitude.tdiv scale)))))
  else pack A negative scaled

/-- The word of the given runs of digits. -/
def encodeDigits (A : Arithmetic m) (negative : Bool) (whole places : Text) :
    m (Except NumberError ℕ) := do
  let high ← A.long ((← digitsValue A whole) * scale)
  let magnitude ← A.long (high + (← digitsValue A places))
  compose A (negative && magnitude ≠ 0) magnitude

/-- The word of canonical decimal text. -/
def encode (A : Arithmetic m) (text : Text) : m (Except NumberError ℕ) :=
  let (negative, body) := Text.dropMark '-' text
  match Text.splitWhen (· == '.') body with
  | [whole, places] =>
    if whole.length ≠ 5 || !whole.all Text.isDigit then pure (.error (.malformed text .wholeWidth))
    else if places.length ≠ 11 || !places.all Text.isDigit then
      pure (.error (.malformed text .fractionWidth))
    else encodeDigits A negative whole places
  | _ => pure (.error (.malformed text .decimalPoint))

/-- The number that a word stands for, in units of `10^-11`. -/
def units (A : Arithmetic m) (word : ℕ) : m ℤ := do
  let whole : ℤ := ((word &&& 0x7FFF0000) >>> 16 : ℕ)
  let fraction : ℤ := (word &&& 0xFFFF : ℕ)
  let scaled ← A.long ((← A.long (whole * scale)) + (← A.long (fraction * Scalar.step)))
  if word &&& 0x80000000 ≠ 0 then A.long (scaled - Scalar.signWeight) else return scaled

/-- The canonical text of a number in units of `10^-11`. -/
def render (A : Arithmetic m) (scaled : ℤ) : m Text := do
  let magnitude ← A.long scaled.natAbs
  let whole ← A.long (magnitude.tdiv scale)
  let fraction ← A.long (magnitude.tmod scale)
  return (if scaled < 0 then ['-'] else []) ++ zeroPadded 5 whole ++ ['.'] ++ zeroPadded 11 fraction

/-- The canonical decimal text of a word. -/
def decode (A : Arithmetic m) (word : ℕ) : m Text := units A word >>= render A

/-- The fields and the sign bit share no bit, so joining them is adding them. -/
theorem bits_ofFields (negative : Bool) {whole fraction : ℕ} (hw : whole ≤ 32767)
    (hf : fraction ≤ 65535) : (Scalar.ofFields negative whole fraction).bits =
      let fields := whole <<< 16 ||| fraction
      if negative then fields ||| 0x80000000 else fields := by
  have hfields : whole <<< 16 ||| fraction = whole * 65536 + fraction := by
    rw [← Nat.shiftLeft_add_eq_or_of_lt (by omega), Nat.shiftLeft_eq]
  have hsign : (whole * 65536 + fraction) ||| 0x80000000 =
      0x80000000 + (whole * 65536 + fraction) := by
    rw [Nat.or_comm]
    exact (Nat.two_pow_add_eq_or_of_lt (i := 31) (by omega) 1).symm
  rw [Scalar.ofFields, Scalar.bits_ofBits (by unfold unit; split <;> omega), hfields]
  dsimp only
  rw [hsign, unit]
  split <;> omega

theorem pack_eq [LawfulMonad m] (h : A.Keeps) (negative : Bool) {scaled : ℕ}
    (hs : scaled < 10000000000000000) : pack A negative scaled =
      pure (Except.map Scalar.bits (
        if 32767 < scaled / scale then .error (.wholeRange (scaled / scale : ℕ))
        else if 65535 < scaled % scale / Scalar.step then
          .error (.fractionRange (scaled % scale / Scalar.step : ℕ))
        else .ok (Scalar.ofFields negative (scaled / scale) (scaled % scale / Scalar.step)))) := by
  have hw : scaled / scale < 100000 := by unfold scale; omega
  have hm : scaled % scale < 100000000000 := Nat.mod_lt _ (by decide)
  have hf : scaled % scale / Scalar.step ≤ scaled % scale := Nat.div_le_self _ _
  unfold pack
  rw [← Int.ofNat_tdiv, ← Int.ofNat_tmod]
  generalize scaled / scale = whole at *
  generalize scaled % scale = rest at *
  rw [h.long_bind (by omega), h.long_bind (by omega), ← Int.ofNat_tdiv]
  generalize rest / Scalar.step = fraction at *
  rw [h.long_bind (by omega)]
  by_cases hwhole : 32767 < whole
  · rw [if_pos hwhole, if_pos (by omega)]
    rfl
  · rw [if_neg hwhole, if_neg (by omega)]
    by_cases hfraction : 65535 < fraction
    · rw [if_pos hfraction, if_pos (by omega)]
      rfl
    · have hl : whole <<< 16 ≤ 4294967295 := by rw [Nat.shiftLeft_eq]; omega
      rw [if_neg hfraction, if_neg (by omega), h.bits (by omega) (by omega), pure_bind,
        Int.toNat_natCast, h.bits (by omega) (by omega), pure_bind, h.bits (by omega) (by omega),
        pure_bind, Except.map, bits_ofFields negative (by omega) (by omega)]
      rfl

theorem compose_eq [LawfulMonad m] (h : A.Keeps) (d : Decimal) :
    compose A (d.negative && d.units ≠ 0) d.units =
      pure ((Scalar.ofDecimal d).map Scalar.bits) := by
  have hd := d.units_lt
  have hq : d.units / scale < 100000 := by unfold scale; omega
  have hw : Scalar.signWeight = 3276800000000000 := rfl
  unfold compose Scalar.ofDecimal
  dsimp only
  cases d.negative && d.units ≠ 0 with
  | false =>
    have hp := pack_eq h false hd
    simp only [Bool.false_eq_true, if_false, Bool.false_and]
    rw [pure_bind, if_neg (by omega), hp]
  | true =>
    -- the offset keeps every number down to the least scalar from going below zero
    simp only [if_true, Bool.true_and, decide_eq_true_eq]
    rw [h.long_bind (by omega)]
    by_cases hs : Scalar.signWeight < d.units
    · rw [if_pos hs, if_pos (by omega), ← Int.ofNat_tdiv]
      generalize d.units / scale = whole at *
      rw [h.long_bind (by omega), h.long_bind (by omega)]
      rfl
    · have hp := pack_eq h true (show Scalar.signWeight - d.units < 10000000000000000 by omega)
      rw [if_neg hs, if_neg (by omega), ← Int.ofNat_sub (Nat.le_of_not_lt hs), hp]

/-- Five digits and eleven places are nothing to round and nothing to refuse. -/
theorem ofDigits_canonical (negative : Bool) {whole places : Text} (hw : whole.length = 5)
    (hwd : ∀ c ∈ whole, Text.isDigit c = true) (hp : places.length = 11)
    (hpd : ∀ c ∈ places, Text.isDigit c = true) :
    ∃ hu, Decimal.ofDigits negative whole places =
      .ok ⟨negative, Text.decimalValue whole * scale + Text.decimalValue places, hu⟩ := by
  have hwv := Text.decimalValue_lt hwd
  have hpv := Text.decimalValue_lt hpd
  rw [hw] at hwv
  rw [hp] at hpv
  have hu : Text.decimalValue whole * scale + Text.decimalValue places < 10000000000000000 := by
    unfold scale
    omega
  have hpu : Decimal.placesUnits places = Text.decimalValue places := by
    have hz : ¬5 ≤ Text.digitValue '0' := by decide
    rw [Decimal.placesUnits, List.take_of_length_le hp.le, List.drop_of_length_le hp.le,
      List.headD_nil, if_neg hz, List.rightpad, hp, Nat.sub_self, List.replicate_zero,
      List.append_nil, Nat.add_zero]
  refine ⟨hu, ?_⟩
  unfold Decimal.ofDigits
  dsimp only
  rw [if_neg (by omega), hpu, dif_pos hu]

theorem encodeDigits_eq [LawfulMonad m] (h : A.Keeps) (negative : Bool) {whole places : Text}
    (hw : whole.length = 5) (hwd : ∀ c ∈ whole, Text.isDigit c = true) (hp : places.length = 11)
    (hpd : ∀ c ∈ places, Text.isDigit c = true) : encodeDigits A negative whole places =
      pure ((Decimal.ofDigits negative whole places >>= Scalar.ofDecimal).map Scalar.bits) := by
  obtain ⟨hu, hd⟩ := ofDigits_canonical negative hw hwd hp hpd
  have hc := compose_eq h ⟨negative, _, hu⟩
  have hs : scale = 100000000000 := rfl
  have hv := Text.decimalValue_lt hwd
  rw [hw] at hv
  rw [encodeDigits, hd, digitsValue_eq h hwd (by omega), pure_bind, h.long_bind (by omega),
    digitsValue_eq h hpd (by omega), pure_bind, h.long_bind (by omega)]
  exact_mod_cast hc

theorem encode_eq [LawfulMonad m] (h : A.Keeps) (text : Text) :
    encode A text = pure ((Scalar.ofCanonicalText text).map Scalar.bits) := by
  unfold encode Scalar.ofCanonicalText Decimal.ofCanonical
  obtain ⟨negative, body⟩ := Text.dropMark '-' text
  dsimp only
  generalize Text.splitWhen (· == '.') body = pieces
  rcases pieces with _ | ⟨whole, _ | ⟨places, _ | ⟨_, _⟩⟩⟩
  · rfl
  · rfl
  · dsimp only
    by_cases hw : (whole.length ≠ 5 || !whole.all Text.isDigit) = true
    · rw [if_pos hw, if_pos hw]
      rfl
    · by_cases hp : (places.length ≠ 11 || !places.all Text.isDigit) = true
      · rw [if_neg hw, if_neg hw, if_pos hp, if_pos hp]
        rfl
      · rw [if_neg hw, if_neg hw, if_neg hp, if_neg hp]
        obtain ⟨hwl, hwd⟩ : whole.length = 5 ∧ ∀ c ∈ whole, Text.isDigit c = true := by
          simpa using hw
        obtain ⟨hpl, hpd⟩ : places.length = 11 ∧ ∀ c ∈ places, Text.isDigit c = true := by
          simpa using hp
        exact encodeDigits_eq h negative hwl hwd hpl hpd
  · rfl

/-- The masks cut the fields out of the word. -/
theorem fields_eq {word : ℕ} (hw : word < 4294967296) :
    (word &&& 0x7FFF0000) >>> 16 = word / 65536 % 32768 ∧ word &&& 0xFFFF = word % 65536 ∧
      (word &&& 0x80000000 ≠ 0 ↔ 2147483648 ≤ word) := by
  refine ⟨?_, Nat.and_two_pow_sub_one_eq_mod word 16, ?_⟩
  · rw [Nat.shiftRight_and_distrib, Nat.shiftRight_eq_div_pow]
    exact Nat.and_two_pow_sub_one_eq_mod (word / 65536) 15
  · have hb : word &&& 0x80000000 = (word.testBit 31).toNat * 2147483648 :=
      Nat.and_two_pow word 31
    have ht : word.testBit 31 = decide (2147483648 ≤ word) := by
      rw [Nat.testBit_eq_decide_div_mod_eq]
      exact decide_eq_decide.mpr (by omega)
    rw [hb, ht]
    by_cases hs : 2147483648 ≤ word <;> simp [hs]

theorem units_eq [LawfulMonad m] (h : A.Keeps) {word : ℕ} (hw : word < 4294967296) :
    units A word = pure (Scalar.ofBits word).units := by
  obtain ⟨hwhole, hfraction, hsign⟩ := fields_eq hw
  have hwl : word / 65536 % 32768 ≤ 32767 := by omega
  have hfl : word % 65536 ≤ 65535 := by omega
  rw [Scalar.units, Scalar.wholeField, Scalar.fractionField, Scalar.bits_ofBits hw, unit, units,
    hwhole, hfraction]
  unfold Scalar.signWeight Scalar.step scale
  generalize word / 65536 % 32768 = whole at *
  generalize word % 65536 = fraction at *
  rw [h.long_bind (by omega), h.long_bind (by omega), h.long_bind (by omega)]
  by_cases hs : 2147483648 ≤ word
  · rw [if_pos (hsign.mpr hs), if_neg (by omega), h.long (by omega) (by omega)]
    push_cast
    rfl
  · rw [if_neg (mt hsign.mp hs), if_pos (by omega)]
    push_cast
    rw [sub_zero]

theorem render_eq [LawfulMonad m] (h : A.Keeps) {scaled : ℤ}
    (hs : scaled.natAbs < 10000000000000000) :
    render A scaled = pure (Decimal.render ⟨scaled < 0, scaled.natAbs, hs⟩) := by
  have hw : scaled.natAbs / scale < 10 ^ 5 := by unfold scale; omega
  have hf : scaled.natAbs % scale < 10 ^ 11 := Nat.mod_lt _ (by decide)
  rw [render, Decimal.render, h.long_bind (by omega), ← Int.ofNat_tdiv, ← Int.ofNat_tmod]
  dsimp only
  generalize scaled.natAbs / scale = whole at *
  generalize scaled.natAbs % scale = fraction at *
  rw [h.long_bind (by omega), h.long_bind (by omega), zeroPadded_natCast (by decide) hw,
    zeroPadded_natCast (by decide) hf]
  simp only [decide_eq_true_eq]

theorem decode_eq [LawfulMonad m] (h : A.Keeps) {word : ℕ} (hw : word < 4294967296) :
    decode A word = pure (Scalar.ofBits word).decimalText := by
  rw [decode, units_eq h hw, pure_bind]
  exact render_eq h (Scalar.natAbs_units_lt _)

end BinaryPoint.Machine
