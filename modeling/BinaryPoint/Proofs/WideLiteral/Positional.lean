import BinaryPoint.Proofs.WideLiteral.Words

/-!
# Words as digits

The words of an integer are its digits in base `2^32`, of which only the first has a sign. So one
word more at the end is one step of Horner's scheme, although the bytes of all words are read in
one go and the sign is looked up in the first of them.

* `integer_append`, `integer_concat`: the integer of words with others behind them.
* `integer_cons_eq_foldl`: the integer of words, digit by digit.
* `integer_positional`: the words of an integer as its digits.
-/
namespace BinaryPoint.WideLiteral

open TwosComplement (unsigned toInt)

/-! ## Words behind others -/

theorem flatMap_bytes_ne_nil {ws : List Scalar} (h : ws ≠ []) : ws.flatMap Scalar.bytes ≠ [] := by
  have hl := length_flatMap_bytes ws
  have hpos := List.length_pos_iff.mpr h
  exact List.length_pos_iff.mp (by omega)

/-- Words behind others weigh what their bytes weigh without a sign. -/
theorem integer_append {ws : List Scalar} (h : ws ≠ []) (vs : List Scalar) :
    integer (ws ++ vs) =
      integer ws * 2 ^ (32 * vs.length) + unsigned (vs.flatMap Scalar.bytes) := by
  have hb : (256 : ℤ) ^ (4 * vs.length) = 2 ^ (32 * vs.length) := by
    rw [show (256 : ℤ) = 2 ^ 8 by norm_num, ← pow_mul]
    congr 1
    omega
  rw [integer, List.flatMap_append, TwosComplement.toInt_append (flatMap_bytes_ne_nil h),
    length_flatMap_bytes, hb, integer]

theorem integer_concat {ws : List Scalar} (h : ws ≠ []) (w : Scalar) :
    integer (ws ++ [w]) = integer ws * 2 ^ 32 + w.bits := by
  rw [integer_append h, List.flatMap_singleton, Scalar.unsigned_bytes]
  rfl

/-- The first word has a sign, and each word after it is the next digit. -/
theorem integer_cons_eq_foldl (w : Scalar) (ws : List Scalar) :
    integer (w :: ws) = ws.foldl (fun n v => n * 2 ^ 32 + (v.bits : ℤ)) w.raw := by
  induction ws using List.reverseRecOn with
  | nil => exact integer_singleton w
  | append_singleton ws v ih =>
    rw [← List.cons_append, integer_concat (List.cons_ne_nil w ws), ih, List.foldl_append]
    rfl

/-! ## Digits of an integer -/

/-- **Words as digits.** A word at the end is the next digit, read without a sign, and a single
word is read with its sign. Words write the integers of their range only, each list of one length
another integer, and a word in front that repeats the sign of the first changes nothing. -/
theorem integer_positional :
    (∀ (ws : List Scalar) (w : Scalar), ws ≠ [] →
      integer (ws ++ [w]) = integer ws * 2 ^ 32 + w.bits) ∧
    (∀ w : Scalar, integer [w] = w.raw) ∧
    (∀ ws : List Scalar, ws ≠ [] →
      -2 ^ (32 * ws.length - 1) ≤ integer ws ∧ integer ws < 2 ^ (32 * ws.length - 1)) ∧
    (∀ ws vs : List Scalar, ws.length = vs.length → integer ws = integer vs → ws = vs) ∧
    ∀ (w : Scalar) (ws : List Scalar),
      integer (.ofBits (signBits w) :: w :: ws) = integer (w :: ws) :=
  ⟨fun _ w h => integer_concat h w, integer_singleton, fun _ => integer_fits,
    fun _ _ => integer_inj, integer_sign_cons⟩

/-- The least word behind a word that repeats its sign, as a digit and as the first word. -/
theorem integer_positional_least_word :
    let sign : Scalar := { raw := -1 }
    let ws : List Scalar := [.ofBits 0xFFFFFFFF, .ofBits 0x80000000]
    ([sign] ≠ [] ∧ integer ([sign] ++ [.min]) = -1 * 2 ^ 32 + 2 ^ 31) ∧
    ([sign, .min] ≠ [] ∧ -2 ^ 63 ≤ integer [sign, .min] ∧ integer [sign, .min] < 2 ^ 63) ∧
    (ws.length = 2 ∧ integer ws = integer [sign, .min] ∧ ws = [sign, .min]) ∧
    (.ofBits (signBits .min) = sign ∧ integer [sign, .min] = integer [.min]) := by
  intro sign ws
  obtain ⟨next, single, range, injective, padded⟩ := integer_positional
  have hnext := next [sign] .min (List.cons_ne_nil _ _)
  rw [single sign] at hnext
  have hws : integer ws = integer [sign, .min] := by decide +kernel
  have hsign : .ofBits (signBits .min) = sign := by decide
  have hmin := padded .min []
  rw [hsign] at hmin
  exact ⟨⟨List.cons_ne_nil _ _, hnext⟩,
    ⟨List.cons_ne_nil _ _, range [sign, .min] (List.cons_ne_nil _ _)⟩,
    ⟨rfl, hws, injective ws [sign, .min] rfl hws⟩, hsign, hmin⟩

end BinaryPoint.WideLiteral
