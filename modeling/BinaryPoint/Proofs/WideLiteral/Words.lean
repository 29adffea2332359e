import Mathlib.Order.Bounds.Defs
import BinaryPoint.Proofs.Scalar.HexText
import BinaryPoint.Proofs.TwosComplement
import BinaryPoint.WideLiteral

/-!
# The words of an integer

A list of words writes the integer that its bytes write, so it is known from its length and its
integer. An integer has the fewest words that hold it, and words that are as few as that are the
words of their integer.

* `integer_inj`, `integer_fits`: words of one length write different integers, all within the
  range of that length.
* `integer_words`, `isLeast_length_words`: the words of an integer write it, and are the fewest.
* `words_integer`: words whose first is needed are the words of their integer.
-/
namespace BinaryPoint

open TwosComplement (unsigned toInt ofInt extend)

/-! ## One word -/

namespace Scalar

theorem length_bytes (s : Scalar) : s.bytes.length = 4 := rfl

theorem unsigned_bytes (s : Scalar) : unsigned s.bytes = s.bits := by
  have h := s.bits_lt
  simp only [unsigned, bytes, List.foldl_cons, List.foldl_nil, UInt8.toNat_ofNat']
  omega

end Scalar

namespace WideLiteral

theorem length_flatMap_bytes (ws : List Scalar) :
    (ws.flatMap Scalar.bytes).length = 4 * ws.length := by
  induction ws with
  | nil => rfl
  | cons w ws ih =>
    rw [List.flatMap_cons, List.length_append, ih, Scalar.length_bytes, List.length_cons]
    omega

theorem cut_flatMap_bytes (ws : List Scalar) : cut (ws.flatMap Scalar.bytes) = ws := by
  induction ws with
  | nil => rfl
  | cons w ws ih =>
    have hw : cut (w.bytes ++ ws.flatMap Scalar.bytes) =
        Scalar.ofBits (unsigned w.bytes) :: cut (ws.flatMap Scalar.bytes) := rfl
    rw [List.flatMap_cons, hw, ih, Scalar.unsigned_bytes, Scalar.ofBits_bits]

theorem bytes_ofBits_unsigned {bytes : List UInt8} (h : bytes.length = 4) :
    (Scalar.ofBits (unsigned bytes)).bytes = bytes := by
  have hu := TwosComplement.unsigned_lt bytes
  rw [h] at hu
  refine TwosComplement.unsigned_inj h.symm ?_
  rw [Scalar.unsigned_bytes, Scalar.bits_ofBits hu]

theorem flatMap_bytes_cut : ∀ {count : ℕ} {bytes : List UInt8}, bytes.length = 4 * count →
    (cut bytes).flatMap Scalar.bytes = bytes ∧ (cut bytes).length = count
  | 0, bytes, h => by rw [List.length_eq_zero_iff.mp h]; exact ⟨rfl, rfl⟩
  | count + 1, a :: b :: c :: d :: rest, h => by
    have hlen : rest.length = 4 * count := by simp only [List.length_cons] at h; omega
    obtain ⟨hr, hl⟩ := flatMap_bytes_cut hlen
    rw [cut, List.flatMap_cons, List.length_cons, hr, hl, bytes_ofBits_unsigned rfl]
    exact ⟨rfl, rfl⟩

/-! ## The integer of words -/

theorem integer_singleton (w : Scalar) : integer [w] = w.raw := by
  have h := w.neg_le_raw
  have h' := w.raw_le
  have hb : (w.bits : ℤ) = w.raw % 4294967296 := by rw [Scalar.bits, wordCount]; omega
  have hm : 256 ^ w.bytes.length = 4294967296 := by norm_num [Scalar.length_bytes]
  rw [integer, List.flatMap_singleton, TwosComplement.toInt_eq_bmod, Scalar.unsigned_bytes, hb, hm]
  exact (Int.emod_bmod w.raw 4294967296).trans (Int.bmod_eq_of_le_mul_two (by omega) (by omega))

theorem integer_inj {ws vs : List Scalar} (hl : ws.length = vs.length)
    (h : integer ws = integer vs) : ws = vs := by
  have hb := TwosComplement.toInt_inj (by
    rw [length_flatMap_bytes, length_flatMap_bytes, hl]) h
  rw [← cut_flatMap_bytes ws, hb, cut_flatMap_bytes]

/-- The range of `count` words. -/
def Fits (count : ℕ) (n : ℤ) : Prop := -2 ^ (32 * count - 1) ≤ n ∧ n < 2 ^ (32 * count - 1)

theorem pow_four_mul {count : ℕ} (h : 1 ≤ count) :
    256 ^ (4 * count) = 2 * 2 ^ (32 * count - 1) := by
  rw [← Nat.pow_succ', show (256 : ℕ) = 2 ^ 8 from rfl, ← Nat.pow_mul]
  congr 1
  omega

theorem fits_iff {count : ℕ} (h : 1 ≤ count) (n : ℤ) :
    Fits count n ↔ -(256 ^ (4 * count) : ℕ) ≤ 2 * n ∧ 2 * n < (256 ^ (4 * count) : ℕ) := by
  have hp : ((2 ^ (32 * count - 1) : ℕ) : ℤ) = 2 ^ (32 * count - 1) := by push_cast; rfl
  rw [pow_four_mul h, Fits, ← hp]
  omega

theorem integer_fits {ws : List Scalar} (h : ws ≠ []) : Fits ws.length (integer ws) := by
  have hb := TwosComplement.toInt_bounds (ws.flatMap Scalar.bytes)
  rw [length_flatMap_bytes] at hb
  exact (fits_iff (List.length_pos_iff.mpr h) _).mpr hb

/-! ## The words of an integer -/

theorem length_words (n : ℤ) : (words n).length = ((ofInt n).length + 3) / 4 :=
  (flatMap_bytes_cut (TwosComplement.length_extend _)).2

theorem integer_words (n : ℤ) : integer (words n) = n := by
  rw [integer, words, (flatMap_bytes_cut (TwosComplement.length_extend _)).1,
    TwosComplement.toInt_extend, TwosComplement.toInt_ofInt]

theorem length_words_pos (n : ℤ) : 1 ≤ (words n).length := by
  have := List.length_pos_iff.mpr (TwosComplement.ofInt_ne_nil n)
  rw [length_words]
  omega

/-- Four bytes to the word, and the fewest bytes. -/
theorem length_words_le {count : ℕ} (h : 1 ≤ count) (n : ℤ) :
    (words n).length ≤ count ↔ Fits count n := by
  obtain ⟨k, hk⟩ : ∃ k, 4 * count = k + 1 := ⟨4 * count - 1, by omega⟩
  have hp : ((256 ^ (k + 1) : ℕ) : ℤ) = 2 * (128 * 256 ^ k) := by push_cast; ring
  have hl := TwosComplement.length_ofInt_le n k
  rw [length_words, fits_iff h, hk, hp]
  omega

theorem isLeast_length_words (n : ℤ) :
    IsLeast {count | 1 ≤ count ∧ Fits count n} (words n).length := by
  have hpos := length_words_pos n
  exact ⟨⟨hpos, (length_words_le hpos n).mp le_rfl⟩, fun _ h => (length_words_le h.1 n).mpr h.2⟩

/-! ## Words that are as few as possible -/

/-- A first word that is not needed takes the integer out of no range. -/
theorem integer_cons_of_fits {w : Scalar} {ws : List Scalar} (h : ws ≠ [])
    (hf : Fits ws.length (integer (w :: ws))) : integer (w :: ws) = integer ws := by
  obtain ⟨hl, hu⟩ := (fits_iff (List.length_pos_iff.mpr h) _).mp hf
  have hd : 256 ^ (4 * ws.length) ∣ 256 ^ (w.bytes ++ ws.flatMap Scalar.bytes).length :=
    pow_dvd_pow _ (by rw [List.length_append, length_flatMap_bytes]; omega)
  have hm : ((256 ^ (4 * ws.length) : ℕ) : ℤ) = 256 ^ (4 * ws.length) := by push_cast; rfl
  calc integer (w :: ws) = (integer (w :: ws)).bmod (256 ^ (4 * ws.length)) :=
        (Int.bmod_eq_of_le_mul_two (by omega) (by omega)).symm
    _ = (unsigned (w.bytes ++ ws.flatMap Scalar.bytes) : ℤ).bmod (256 ^ (4 * ws.length)) := by
        rw [integer, List.flatMap_cons, TwosComplement.toInt_eq_bmod, Int.bmod_bmod_of_dvd hd]
    _ = (unsigned (ws.flatMap Scalar.bytes) : ℤ).bmod (256 ^ (4 * ws.length)) := by
        rw [TwosComplement.unsigned_append, length_flatMap_bytes, Nat.cast_add, Nat.cast_mul,
          Int.mul_add_bmod_self_right]
    _ = integer ws := by rw [integer, TwosComplement.toInt_eq_bmod, length_flatMap_bytes]

/-- The bits of a word that repeats the sign of the word `v`. -/
def signBits (v : Scalar) : ℕ := if v.bits < 0x80000000 then 0 else 0xFFFFFFFF

theorem bytes_signBits (v : Scalar) : (Scalar.ofBits (signBits v)).bytes =
    List.replicate 4 (if TwosComplement.isNegative v.bytes then 0xFF else 0x00) := by
  have hv := v.bits_lt
  have hn : TwosComplement.isNegative v.bytes = decide (0x80000000 ≤ v.bits) := by
    rw [Scalar.bytes, TwosComplement.isNegative, UInt8.toNat_ofNat']
    exact decide_eq_decide.mpr (by omega)
  rw [signBits, hn]
  by_cases h : v.bits < 0x80000000
  · rw [if_pos h, decide_eq_false (by omega)]
    decide
  · rw [if_neg h, decide_eq_true (by omega)]
    decide

theorem integer_sign_cons (v : Scalar) (ws : List Scalar) :
    integer (Scalar.ofBits (signBits v) :: v :: ws) = integer (v :: ws) := by
  have hn : TwosComplement.isNegative ((v :: ws).flatMap Scalar.bytes) =
      TwosComplement.isNegative v.bytes := rfl
  rw [integer, List.flatMap_cons, bytes_signBits, ← hn, TwosComplement.toInt_replicate_sign,
    integer]

/-- The first of two words or more only repeats the sign of the second. -/
def IsPadded : List Scalar → Prop
  | w :: v :: _ => w.bits = signBits v
  | _ => False

theorem isPadded_cons {w v : Scalar} {ws : List Scalar} :
    IsPadded (w :: v :: ws) ↔ w.bits = signBits v := Iff.rfl

theorem signBits_lt (v : Scalar) : signBits v < 4294967296 := by
  unfold signBits; split <;> omega

theorem words_integer {ws : List Scalar} (h : ws ≠ []) (hp : ¬IsPadded ws) :
    words (integer ws) = ws := by
  have hl := (length_words_le (List.length_pos_iff.mpr h) _).mpr (integer_fits h)
  refine integer_inj (le_antisymm hl ?_) (integer_words _)
  -- with fewer words the first one would repeat the sign
  by_contra hlt
  match ws with
  | [] => exact h rfl
  | [w] => have := length_words_pos (integer [w]); exact hlt this
  | w :: v :: ws =>
    have hf : Fits (v :: ws).length (integer (w :: v :: ws)) :=
      (length_words_le (by simp) _).mp (by simp only [List.length_cons] at hlt ⊢; omega)
    have he := (integer_cons_of_fits (List.cons_ne_nil v ws) hf).trans (integer_sign_cons v ws).symm
    have hw := (List.cons.inj (integer_inj (by simp only [List.length_cons]) he)).1
    rw [isPadded_cons, hw] at hp
    exact hp (Scalar.bits_ofBits (signBits_lt v))

end WideLiteral

end BinaryPoint
