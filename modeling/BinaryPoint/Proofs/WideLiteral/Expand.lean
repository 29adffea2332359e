import BinaryPoint.Proofs.Decimal.Integers
import BinaryPoint.Proofs.WideLiteral.Words

/-!
# What a wide literal stands for

An integer in decimal, or hex digits behind a mark, is read as an integer and then written in
words if one word is too narrow for it. Hex digits are two's complement of their own width,
which is the balanced remainder of the number that they write.

* `readInteger_denotesInt`, `readInteger_hex`, `hexInteger_eq_bmod`: the integer of a literal.
* `expand_denotesInt`, `expand_hex`, `expand_hexWord`: the scalars of a literal by the size of its
  integer.
* `expand_inverse`: from literals to words and back.
-/
namespace BinaryPoint

open Decimal (DenotesInt Numeral)
open TwosComplement (unsigned toInt ofInt)

namespace WideLiteral

/-! ## The integer of a literal -/

theorem readInteger_denotesInt {text : Text} {n : ℤ} (h : DenotesInt text n) :
    readInteger text = .ok n := by
  have hmark : '#' ∉ text := fun hm => by
    have := h.of_mem hm
    revert this; decide
  obtain ⟨m, hp, rfl, rfl⟩ := h
  have hb : m.body = m.whole := by rw [Numeral.body, hp]
  simp only [readInteger, Text.dropMark_of_not_mem hmark, m.dropMark_text, hb, m.whole_digits,
    if_true]

theorem readInteger_hex {digits : Text} (h : Text.isHexDigits digits = true) :
    readInteger ('#' :: digits) = .ok (hexInteger digits) := by
  rw [readInteger, Text.dropMark, if_pos rfl]
  exact if_pos h

/-- The first digit is from eight on exactly if the number is in the upper half of its width. -/
theorem hexInteger_eq_bmod {digits : Text} (h : Text.isHexDigits digits = true) :
    hexInteger digits = (Text.hexValue digits : ℤ).bmod (2 ^ (4 * digits.length)) := by
  obtain ⟨hne, hd⟩ := Text.isHexDigits_iff.mp h
  obtain ⟨c, rest, rfl⟩ := List.exists_cons_of_ne_nil hne
  have hp : 2 ^ (4 * (c :: rest).length) = 16 * 16 ^ rest.length := by
    rw [Nat.pow_mul, List.length_cons, Nat.pow_succ']
  have hv : Text.hexValue (c :: rest) =
      Text.digitValue c * 16 ^ rest.length + Text.hexValue rest := Text.valueIn_cons 16 c rest
  have hr : Text.hexValue rest < 16 ^ rest.length := Text.valueIn_lt fun d hm =>
    Text.digitValue_of_isHexDigit (hd d (List.mem_cons_of_mem c hm))
  have hc := Text.digitValue_of_isHexDigit (hd c List.mem_cons_self)
  have hlt : Text.hexValue (c :: rest) < 2 ^ (4 * (c :: rest).length) := by
    rw [hp, hv]; nlinarith
  rw [TwosComplement.bmod_of_lt hlt, hexInteger, List.headD_cons, Nat.one_shiftLeft]
  by_cases h8 : 8 ≤ Text.digitValue c
  · rw [if_pos h8, if_pos (by rw [hp, hv]; nlinarith)]
  · rw [if_neg h8, if_neg (by rw [hp, hv]; nlinarith)]

/-! ## The scalars of a literal -/

theorem expand_of_readInteger {literal : Text} {n : ℤ} (hp : '.' ∉ literal)
    (hr : readInteger literal = .ok n) :
    expand literal = if 4 < (ofInt n).length || isLongHex literal then .ok (words n)
      else (Scalar.ofLiteral literal).map ([·]) := by
  rw [expand, if_neg (by simpa using hp), hr]
  rfl

theorem four_lt_length_ofInt {n : ℤ} : 4 < (ofInt n).length ↔ n < -2 ^ 31 ∨ 2 ^ 31 ≤ n := by
  have h := TwosComplement.length_ofInt_le n 3
  omega

/-- Decimal digits are spread over words exactly if one word cannot hold their integer. -/
theorem expand_denotesInt {literal : Text} {n : ℤ} (h : DenotesInt literal n) :
    expand literal = if n < -2 ^ 31 ∨ 2 ^ 31 ≤ n then .ok (words n)
      else (Scalar.ofDecimalText literal).map ([·]) := by
  have hne : ∀ c ∈ literal, c ≠ '.' ∧ c ≠ '#' := by
    intro c hc
    rcases h.of_mem hc with rfl | hd
    · decide
    · constructor <;> rintro rfl <;> revert hd <;> decide
  have hh : literal.head? ≠ some '#' := fun e => (hne '#' (List.mem_of_head? e)).2 rfl
  rw [expand_of_readInteger (fun hm => (hne '.' hm).1 rfl) (readInteger_denotesInt h),
    Scalar.ofLiteral, if_neg hh]
  have hl : isLongHex literal = false := by simp [isLongHex, hh]
  simp only [hl, Bool.or_false, decide_eq_true_eq, four_lt_length_ofInt]

/-- A whole number is read without rounding, so only its size decides. -/
theorem readAs_denotesInt {literal : Text} {n : ℤ} (h : DenotesInt literal n) :
    Scalar.ReadAs (n * 10 ^ 11) (Scalar.ofDecimalText literal) := by
  obtain ⟨m, rfl, hm⟩ := h.denotes
  have hr := Scalar.ofDecimalText_readAs m
  have hn : (n * 10 ^ 11 : ℚ) = ((n * 10 ^ 11 : ℤ) : ℚ) := by push_cast; rfl
  rwa [hm, hn, Decimal.roundAway_intCast] at hr

theorem expand_whole {literal : Text} {n : ℤ} (h : DenotesInt literal n)
    (hn : -32768 ≤ n ∧ n ≤ 32767) : ∃ s, expand literal = .ok [s] ∧ s.raw = 65536 * n := by
  have hr := readAs_denotesInt h
  rw [Scalar.ReadAs, if_neg (by omega), if_neg (by omega)] at hr
  obtain ⟨s, hs, hraw⟩ := hr
  refine ⟨s, ?_, by omega⟩
  rw [expand_denotesInt h, if_neg (by omega), hs]
  rfl

/-- The whole part of a scalar has half the bits of a word. -/
theorem expand_gap {literal : Text} {n : ℤ} (h : DenotesInt literal n)
    (hn : -2 ^ 31 ≤ n ∧ n < -32768 ∨ 32767 < n ∧ n < 2 ^ 31) :
    ∃ e, expand literal = .error e := by
  have hr := readAs_denotesInt h
  rw [Scalar.ReadAs, if_pos (by omega)] at hr
  obtain ⟨v, hv⟩ := hr
  rw [expand_denotesInt h, if_neg (by omega), hv]
  exact ⟨_, rfl⟩

theorem point_not_mem_of_isHexDigits {digits : Text} (h : Text.isHexDigits digits = true) :
    '.' ∉ '#' :: digits := by
  intro hm
  rcases List.mem_cons.mp hm with hm | hm
  · cases hm
  · have := (Text.isHexDigits_iff.mp h).2 '.' hm
    revert this; decide

theorem expand_hex {digits : Text} (h : Text.isHexDigits digits = true) (hl : 8 < digits.length) :
    expand ('#' :: digits) = .ok (words (hexInteger digits)) := by
  have hlong : isLongHex ('#' :: digits) = true := by simp [isLongHex]; omega
  rw [expand_of_readInteger (point_not_mem_of_isHexDigits h) (readInteger_hex h), hlong]
  simp

/-- Up to eight digits are an ordinary scalar literal. -/
theorem expand_hexWord {digits : Text} (h : Text.isHexDigits digits = true)
    (hl : digits.length ≤ 8) :
    expand ('#' :: digits) = (Scalar.ofHex ('#' :: digits)).map ([·]) := by
  have hlong : isLongHex ('#' :: digits) = false := by simp [isLongHex]; omega
  have hp : 2 ^ (4 * digits.length) ≤ 2 ^ 32 := Nat.pow_le_pow_right (by decide) (by omega)
  have hpos : 0 < 2 ^ (4 * digits.length) := Nat.pow_pos (by decide)
  have hlo := Int.le_bmod (x := Text.hexValue digits) hpos
  have hhi := Int.bmod_lt (x := Text.hexValue digits) hpos
  have hn : ¬4 < (ofInt (hexInteger digits)).length := by
    rw [four_lt_length_ofInt, hexInteger_eq_bmod h]; omega
  rw [expand_of_readInteger (point_not_mem_of_isHexDigits h) (readInteger_hex h), hlong]
  simp [hn, Scalar.ofLiteral]

/-! ## The hex digits of words -/

theorem expand_literal (s : Scalar) : expand s.literal = .ok [s] := by
  have he := expand_hexWord s.isHexDigits_hex s.length_hex.le
  rw [← Scalar.literal, Scalar.ofHex_literal] at he
  exact he

theorem length_flatMap_hex (ws : List Scalar) : (ws.flatMap Scalar.hex).length = 8 * ws.length := by
  induction ws with
  | nil => rfl
  | cons w ws ih =>
    rw [List.flatMap_cons, List.length_append, ih, Scalar.length_hex, List.length_cons]
    omega

theorem isHexDigits_flatMap_hex {ws : List Scalar} (h : ws ≠ []) :
    Text.isHexDigits (ws.flatMap Scalar.hex) = true := by
  have hl := List.length_pos_iff.mpr h
  refine Text.isHexDigits_iff.mpr ⟨List.length_pos_iff.mp ?_, fun c hc => ?_⟩
  · rw [length_flatMap_hex]; omega
  · obtain ⟨w, -, hw⟩ := List.mem_flatMap.mp hc
    exact (Text.isHexDigits_iff.mp w.isHexDigits_hex).2 c hw

/-- Eight digits weigh what four bytes weigh. -/
theorem hexValue_flatMap_hex (ws : List Scalar) :
    Text.hexValue (ws.flatMap Scalar.hex) = unsigned (ws.flatMap Scalar.bytes) := by
  induction ws with
  | nil => rfl
  | cons w ws ih =>
    have hw := w.hexValue_hex
    have hp : 16 ^ (8 * ws.length) = 256 ^ (4 * ws.length) := by
      rw [Nat.pow_mul, Nat.pow_mul]
    rw [Text.hexValue] at ih hw
    rw [List.flatMap_cons, List.flatMap_cons, Text.hexValue, Text.valueIn_append,
      TwosComplement.unsigned_append, length_flatMap_hex, length_flatMap_bytes, ih, hw,
      Scalar.unsigned_bytes, hp]

theorem hexInteger_flatMap_hex {ws : List Scalar} (h : ws ≠ []) :
    hexInteger (ws.flatMap Scalar.hex) = integer ws := by
  have hp : 2 ^ (4 * (8 * ws.length)) = 256 ^ (4 * ws.length) := by
    rw [show 4 * (8 * ws.length) = 8 * (4 * ws.length) by omega, Nat.pow_mul]
  rw [hexInteger_eq_bmod (isHexDigits_flatMap_hex h), length_flatMap_hex, hexValue_flatMap_hex, hp,
    integer, TwosComplement.toInt_eq_bmod, length_flatMap_bytes]

/-! ## Both ways -/

/-- The literals of `n` that stand for words: decimal digits that one word cannot hold, and more
hex digits than a word has, as two's complement of their own width. -/
inductive Denotes : Text → ℤ → Prop where
  | decimal {literal : Text} {n : ℤ} (h : DenotesInt literal n) (hn : n < -2 ^ 31 ∨ 2 ^ 31 ≤ n) :
    Denotes literal n
  | hex {digits : Text} (h : Text.isHexDigits digits = true) (hl : 8 < digits.length) :
    Denotes ('#' :: digits) ((Text.hexValue digits : ℤ).bmod (2 ^ (4 * digits.length)))

theorem expand_denotes {literal : Text} {n : ℤ} (h : Denotes literal n) :
    expand literal = .ok (words n) := by
  cases h with
  | decimal h hn => rw [expand_denotesInt h, if_pos hn]
  | hex h hl => rw [expand_hex h hl, hexInteger_eq_bmod h]

/-- Words that are as few as possible are more than one only for what one cannot hold. -/
theorem denotes_ofInt_integer {ws : List Scalar} (hl : 2 ≤ ws.length) (hp : ¬IsPadded ws) :
    Denotes (Text.ofInt (integer ws)) (integer ws) := by
  refine .decimal (Decimal.denotesInt_ofInt _) ?_
  have hw := words_integer (List.length_pos_iff.mp (by omega)) hp
  have hf : ¬Fits 1 (integer ws) := by
    rw [← length_words_le le_rfl, hw]; omega
  rw [Fits] at hf
  omega

/-- **Wide literals and words.** A wide literal stands for the fewest words of its integer; and
words whose first is needed are what their integer in decimal stands for, and what their digits
behind one mark stand for. -/
theorem expand_inverse :
    (∀ (literal : Text) (n : ℤ), Denotes literal n → ∃ ws, expand literal = .ok ws ∧
      integer ws = n ∧ IsLeast {count | 1 ≤ count ∧ Fits count n} ws.length) ∧
    ∀ ws : List Scalar, 2 ≤ ws.length → ¬IsPadded ws →
      expand (Text.ofInt (integer ws)) = .ok ws ∧
        expand ('#' :: ws.flatMap Scalar.hex) = .ok ws := by
  refine ⟨fun literal n h => ⟨words n, expand_denotes h, integer_words n, isLeast_length_words n⟩,
    fun ws hl hp => ?_⟩
  have hne : ws ≠ [] := List.length_pos_iff.mp (by omega)
  constructor
  · rw [expand_denotes (denotes_ofInt_integer hl hp), words_integer hne hp]
  · rw [expand_hex (isHexDigits_flatMap_hex hne) (by rw [length_flatMap_hex]; omega),
      hexInteger_flatMap_hex hne, words_integer hne hp]

/-- Nine digits, the least integer below one word, and a word that is needed before another. -/
theorem expand_inverse_nine_digits :
    (∃ ws, expand "#f00000000".toList = .ok ws ∧ integer ws = -4294967296 ∧
      IsLeast {count | 1 ≤ count ∧ Fits count (-4294967296)} ws.length) ∧
    (∃ ws, expand "-2147483649".toList = .ok ws ∧ integer ws = -2147483649 ∧
      IsLeast {count | 1 ≤ count ∧ Fits count (-2147483649)} ws.length) ∧
    let ws := [Scalar.zero, Scalar.min]
    (2 ≤ ws.length ∧ ¬IsPadded ws) ∧ expand (Text.ofInt (integer ws)) = .ok ws ∧
      expand ('#' :: ws.flatMap Scalar.hex) = .ok ws := by
  obtain ⟨fewest, inverse⟩ := expand_inverse
  have hex : Denotes "#f00000000".toList (-4294967296) := by
    have h := Denotes.hex (show Text.isHexDigits "f00000000".toList = true by decide) (by decide)
    have hv : (Text.hexValue "f00000000".toList : ℤ).bmod (2 ^ (4 * "f00000000".toList.length)) =
        -4294967296 := by decide +kernel
    rwa [hv] at h
  have decimal : Denotes "-2147483649".toList (-2147483649) := by
    have h := Decimal.denotesInt_ofInt (-2147483649)
    rw [show Text.ofInt (-2147483649) = "-2147483649".toList by decide] at h
    exact .decimal h (by decide)
  have needed : ¬IsPadded [Scalar.zero, Scalar.min] := by
    rw [isPadded_cons]; decide
  exact ⟨fewest _ _ hex, fewest _ _ decimal, ⟨by decide, needed⟩, inverse _ (by decide) needed⟩

end WideLiteral

end BinaryPoint
