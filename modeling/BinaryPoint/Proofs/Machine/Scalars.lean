import BinaryPoint.Proofs.Scalar.Products
import BinaryPoint.Proofs.Machine.Decimals

/-!
# Scalars in machine words

The product of two words and a word shifted left by its fraction fit 64 bits, and what is clamped
to the range of a word fits 32.

* `mul`, `div`: products and quotients of words, step by step.
* `words_suffice`: no computation of decimals, products or quotients leaves its words.
-/
namespace BinaryPoint.Machine

variable {m : Type → Type} [Monad m] {A : Arithmetic m}

/-- The word of a product. The low half of the product decides on the correction. -/
def mul (A : Arithmetic m) (a b : ℤ) : m ℤ := do
  let product ← A.long (a * b)
  let discarded ← A.half product
  let floor ← A.long (product.shiftRight 16)
  let shifted ←
    if product < 0 ∧ discarded < -1 then A.long (floor + 1)
    else if 0 < product ∧ 0 < discarded then A.long (floor - 1)
    else pure floor
  A.word (clamp shifted)

/-- The word of a quotient. -/
def div (A : Arithmetic m) (a b : ℤ) : m (Except NumberError ℤ) := do
  if b = 0 then return .error .divisionByZero
  else
    let scaled ← A.long (a.shiftLeft 16)
    let quotient ← A.long (scaled.tdiv b)
    return .ok (← A.word (clamp quotient))

theorem word_clamp (h : A.Keeps) (n : ℤ) : A.word (clamp n) = pure (clamp n) := by
  have hc : -2147483648 ≤ clamp n ∧ clamp n ≤ 2147483647 := by
    unfold clamp
    omega
  exact h.word hc.1 hc.2

theorem natAbs_raw_le (s : Scalar) : s.raw.natAbs ≤ 2147483648 := by
  have := s.neg_le_raw
  have := s.raw_le
  omega

theorem mul_eq [LawfulMonad m] (h : A.Keeps) (a b : Scalar) :
    mul A a.raw b.raw = pure (a * b).raw := by
  have hp : (a.raw * b.raw).natAbs ≤ 2147483648 * 2147483648 := by
    rw [Int.natAbs_mul]
    exact Nat.mul_le_mul (natAbs_raw_le a) (natAbs_raw_le b)
  rw [Scalar.raw_mul, Scalar.shifted, mul]
  generalize a.raw * b.raw = product at *
  have hs : product.shiftRight 16 = product / unit := Int.shiftRight_eq_div_pow product 16
  unfold unit at hs ⊢
  rw [h.long_bind (by omega), h.half, pure_bind, hs, h.long_bind (by omega)]
  dsimp only
  split
  · rw [h.long_bind (by omega), word_clamp h]
  · split
    · rw [h.long_bind (by omega), word_clamp h]
    · rw [pure_bind, word_clamp h]

theorem div_eq [LawfulMonad m] (h : A.Keeps) (a b : Scalar) :
    div A a.raw b.raw = pure ((Scalar.div a b).map Scalar.raw) := by
  have ha := natAbs_raw_le a
  have hs : a.raw.shiftLeft 16 = a.raw * unit := Int.shiftLeft_eq a.raw 16
  unfold unit at hs
  rw [div, Scalar.div, hs, unit]
  by_cases hb : b.raw = 0
  · rw [if_pos hb, if_pos hb]
    rfl
  · have hq : ((a.raw * (65536 : ℕ)).tdiv b.raw).natAbs ≤ (a.raw * (65536 : ℕ)).natAbs := by
      rw [Int.natAbs_tdiv]
      exact Nat.div_le_self _ _
    rw [if_neg hb, if_neg hb, h.long_bind (by omega), h.long_bind (by omega), word_clamp h,
      pure_bind, Except.map, Scalar.raw_saturate]

/-- **No overflow.** Normalising any text, encoding any text, decoding any word, and multiplying
and dividing any two words have the same result, value or refusal, over integers without bounds
and in words that wrap, and none of their steps leaves its word. Only the low half that a product
is read by does not keep its value. -/
theorem words_suffice :
    (∀ text : Text, Agrees (fun A => normalize A text) (Decimal.normalize text)) ∧
    (∀ text : Text,
      Agrees (fun A => encode A text) ((Scalar.ofCanonicalText text).map Scalar.bits)) ∧
    (∀ word : Fin wordCount,
      Agrees (fun A => decode A word) (Scalar.ofBits word).decimalText) ∧
    (∀ a b : Scalar, Agrees (fun A => mul A a.raw b.raw) (a * b).raw ∧
      Agrees (fun A => div A a.raw b.raw) ((Scalar.div a b).map Scalar.raw)) ∧
    ∃ a b : Scalar, mul strict a.raw b.raw = none :=
  ⟨fun text => .of_keeps fun h => normalize_eq h text,
    fun text => .of_keeps fun h => encode_eq h text,
    fun word => .of_keeps fun h => decode_eq h word.isLt,
    fun a b => ⟨.of_keeps fun h => mul_eq h a b, .of_keeps fun h => div_eq h a b⟩,
    Scalar.one, Scalar.one, by decide⟩

end BinaryPoint.Machine
