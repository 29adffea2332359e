import Mathlib.Algebra.Order.Field.Rat
import Mathlib.Tactic.Linarith
import Mathlib.Tactic.Ring
import BinaryPoint.Proofs.Scalar.Saturation

/-!
# Products of scalars

The product of two words counts steps of `2^-32`, and its floor in steps of `2^-16` is the whole
of it but for the low half. The correction moves this floor by one where the low half, read with a
sign, has the sign of the product. Below zero it moves up, and the floor is at most `-1` there.
Above zero it moves down, which leads past zero if the floor is zero already.

* `shifted_cases`: all that the correction can do.
* `shifted_error`: how far the corrected floor is from the product.
* `mul_towardZero`: which products stay between zero and their floor.
* `mul_accurate`: the error of a product, the products that are exact, and how to undo them.
-/
namespace BinaryPoint.Scalar

/-! ## The correction -/

theorem shifted_cases (p : ℤ) :
    (p < 0 ∧ 32768 ≤ p % 65536 ∧ p % 65536 < 65535 ∧ shifted p = p / 65536 + 1) ∨
    (0 < p ∧ 0 < p % 65536 ∧ p % 65536 < 32768 ∧ shifted p = p / 65536 - 1) ∨
    ((p < 0 → p % 65536 < 32768 ∨ p % 65536 = 65535) ∧
      (0 < p → p % 65536 = 0 ∨ 32768 ≤ p % 65536) ∧ shifted p = p / 65536) := by
  unfold shifted discarded unit
  dsimp only
  split
  · exact .inl (by omega)
  · split
    · exact .inr (.inl (by omega))
    · exact .inr (.inr (by omega))

/-- The floor of a negative product is below zero, so one step up from it is not above. -/
theorem shifted_of_neg {p : ℤ} (h : p < 0) : p / 65536 ≤ shifted p ∧ shifted p ≤ 0 := by
  have := shifted_cases p
  omega

/-- The step down starts from one at least: a floor of zero is corrected below `32768` only. -/
theorem shifted_of_large {p : ℤ} (h : 32768 ≤ p) : 0 ≤ shifted p ∧ shifted p ≤ p / 65536 := by
  have := shifted_cases p
  omega

theorem shifted_of_small {p : ℤ} (h : 0 < p) (h' : p < 32768) : shifted p = -1 := by
  have := shifted_cases p
  omega

theorem shifted_error (p : ℤ) :
    -98304 < 65536 * shifted p - p ∧ 65536 * shifted p - p ≤ 32768 := by
  have := shifted_cases p
  omega

theorem shifted_mul_unit (n : ℤ) : shifted (n * 65536) = n := by
  have := shifted_cases (n * 65536)
  omega

/-! ## Products between zero and their floor -/

theorem raw_mul (a b : Scalar) : (a * b).raw = clamp (shifted (a.raw * b.raw)) :=
  raw_saturate _

/-- The word `x` is not on the other side of zero from the product `p`, and not farther from zero
than the floor of `p` in steps of a word. -/
def TowardZero (p : ℤ) (x : Scalar) : Prop :=
  (0 < p → 0 ≤ x.raw ∧ x.raw ≤ clamp (p / 2 ^ 16)) ∧
    (p < 0 → clamp (p / 2 ^ 16) ≤ x.raw ∧ x.raw ≤ 0) ∧ (p = 0 → x.raw = 0)

instance (p : ℤ) (x : Scalar) : Decidable (TowardZero p x) :=
  inferInstanceAs (Decidable (_ ∧ _ ∧ _))

/-- **Where a product lies.** A product of words is between zero and its floor exactly if it is
not positive, or at least `2^15`. All positive products below `2^15` come out as `-1`. -/
theorem mul_towardZero (a b : Scalar) :
    (TowardZero (a.raw * b.raw) (a * b) ↔ a.raw * b.raw ≤ 0 ∨ 2 ^ 15 ≤ a.raw * b.raw) ∧
      (0 < a.raw * b.raw → a.raw * b.raw < 2 ^ 15 → (a * b).raw = -1) := by
  rw [TowardZero, raw_mul]
  generalize a.raw * b.raw = p
  have small : 0 < p → p < 2 ^ 15 → clamp (shifted p) = -1 := by
    intro h h'
    rw [shifted_of_small h h']
    rfl
  refine ⟨⟨fun h => ?_, fun h => ⟨fun hp => ?_, fun hp => ?_, ?_⟩⟩, small⟩
  · by_contra hp
    have := small (by omega) (by omega)
    have := (h.1 (by omega)).1
    omega
  · obtain ⟨h0, hf⟩ := shifted_of_large (p := p) (by omega)
    exact ⟨clamp_mono h0, clamp_mono hf⟩
  · obtain ⟨hf, h0⟩ := shifted_of_neg hp
    exact ⟨clamp_mono hf, clamp_mono h0⟩
  · rintro rfl
    rfl

/-- Products on both sides of the least one that is kept: `181 * 181` and `182 * 182`. -/
theorem mul_towardZero_around_half :
    let a : Scalar := { raw := 181 }
    let b : Scalar := { raw := 182 }
    (0 < a.raw * a.raw ∧ a.raw * a.raw < 2 ^ 15 ∧ (a * a).raw = -1) ∧
      2 ^ 15 ≤ b.raw * b.raw ∧ TowardZero (b.raw * b.raw) (b * b) := by
  intro a b
  have small : 0 < a.raw * a.raw ∧ a.raw * a.raw < 2 ^ 15 := by decide
  have large : 2 ^ 15 ≤ b.raw * b.raw := by decide
  exact ⟨⟨small.1, small.2, (mul_towardZero a a).2 small.1 small.2⟩, large,
    (mul_towardZero b b).1.mpr (.inr large)⟩

/-- The square of the last fraction bit is positive, its floor is zero, and it comes out below
zero. -/
theorem mul_last_bit :
    let a : Scalar := { raw := 1 }
    0 < a.raw * a.raw ∧ clamp (a.raw * a.raw / 2 ^ 16) = 0 ∧ (a * a).raw = -1 ∧
      ¬TowardZero (a.raw * a.raw) (a * a) := by
  decide

/-! ## The error of a product -/

/-- The exact product, in steps of a word. -/
def exactProduct (a b : Scalar) : ℚ := a.raw * b.raw / 2 ^ 16

/-- The scalar is the whole number `k`. -/
def IsWhole (a : Scalar) (k : ℤ) : Prop := a.raw = k * 2 ^ 16

protected theorem mul_comm (a b : Scalar) : a * b = b * a := by
  refine Scalar.ext ?_
  rw [raw_mul, raw_mul, Int.mul_comm]

theorem exactProduct_eq_iff {a b : Scalar} {n : ℤ} :
    exactProduct a b = n ↔ a.raw * b.raw = n * 65536 := by
  rw [exactProduct, div_eq_iff (by norm_num)]
  norm_num [← @Int.cast_inj ℚ]

theorem exactProduct_of_whole {a b : Scalar} {k : ℤ} (h : IsWhole b k) :
    exactProduct a b = (a.raw * k : ℤ) := by
  rw [exactProduct_eq_iff, h, mul_assoc]
  rfl

/-- If nothing is cut off, nothing is corrected. -/
theorem raw_mul_of_exact {a b : Scalar} {n : ℤ} (h : exactProduct a b = n) :
    (a * b).raw = clamp n := by
  rw [raw_mul, exactProduct_eq_iff.mp h, shifted_mul_unit]

theorem mul_error {a b : Scalar} (hmin : min.raw < (a * b).raw) (hmax : (a * b).raw < max.raw) :
    -(3 / 2) < (a * b).raw - exactProduct a b ∧ (a * b).raw - exactProduct a b ≤ 1 / 2 := by
  have hs : (a * b).raw = shifted (a.raw * b.raw) := by
    rw [raw_mul] at hmin hmax ⊢
    exact clamp_of_lt hmin hmax
  obtain ⟨hl, hu⟩ := shifted_error (a.raw * b.raw)
  have hl' : (-98304 : ℚ) < 65536 * shifted (a.raw * b.raw) - a.raw * b.raw := by exact_mod_cast hl
  have hu' : 65536 * (shifted (a.raw * b.raw) : ℚ) - a.raw * b.raw ≤ 32768 := by exact_mod_cast hu
  rw [hs, exactProduct]
  constructor <;> linarith

theorem div_mul_whole {a n : Scalar} {k : ℤ} (hn : IsWhole n k) (hk : k ≠ 0)
    (hmin : -2 ^ 31 ≤ a.raw * k) (hmax : a.raw * k < 2 ^ 31) : div (a * n) n = .ok a := by
  have hn0 : n.raw ≠ 0 := by
    rw [hn]
    omega
  have hm : (a * n).raw = a.raw * k := by
    rw [raw_mul_of_exact (exactProduct_of_whole hn), clamp_eq_self hmin hmax]
  have hq : (a * n).raw * unit = a.raw * n.raw := by
    rw [hm, hn, unit]
    push_cast
    ring
  rw [div, if_neg hn0, hq, Int.mul_tdiv_cancel _ hn0, saturate_raw]

/-- **Accuracy of products.** Products commute. One that does not saturate is less than one and a
half steps below the exact product and at most half a step above it. An integer number of steps is
kept as it is but for saturation, and a whole factor always gives one; division by it leads back,
if the product fits. -/
theorem mul_accurate :
    (∀ a b : Scalar, a * b = b * a) ∧
    (∀ a b : Scalar, min.raw < (a * b).raw → (a * b).raw < max.raw →
      -(3 / 2) < (a * b).raw - exactProduct a b ∧ (a * b).raw - exactProduct a b ≤ 1 / 2) ∧
    (∀ (a b : Scalar) (n : ℤ), exactProduct a b = n → (a * b).raw = clamp n) ∧
    (∀ (a b : Scalar) (k : ℤ), IsWhole a k ∨ IsWhole b k → ∃ n : ℤ, exactProduct a b = n) ∧
    ∀ (a n : Scalar) (k : ℤ), IsWhole n k → k ≠ 0 → -2 ^ 31 ≤ a.raw * k → a.raw * k < 2 ^ 31 →
      div (a * n) n = .ok a := by
  refine ⟨Scalar.mul_comm, fun _ _ => mul_error, fun _ _ _ => raw_mul_of_exact, fun a b k h => ?_,
    fun _ _ _ => div_mul_whole⟩
  rcases h with h | h
  · refine ⟨b.raw * k, ?_⟩
    rw [← exactProduct_of_whole h, exactProduct, exactProduct, mul_comm (a.raw : ℚ)]
  · exact ⟨_, exactProduct_of_whole h⟩

/-- The square of the least word above `1.5`, and its product with `-2`. -/
theorem mul_accurate_above_three_halves :
    let a : Scalar := { raw := 98305 }
    let n : Scalar := { raw := -131072 }
    (min.raw < (a * a).raw ∧ (a * a).raw < max.raw ∧
      -(3 / 2) < (a * a).raw - exactProduct a a ∧ (a * a).raw - exactProduct a a ≤ 1 / 2) ∧
    (exactProduct a n = (-196610 : ℤ) ∧ (a * n).raw = clamp (-196610)) ∧
    (IsWhole n (-2) ∧ ∃ m : ℤ, exactProduct a n = m) ∧ div (a * n) n = .ok a := by
  intro a n
  obtain ⟨-, error, exact, whole, inverse⟩ := mul_accurate
  have hmin : min.raw < (a * a).raw := by decide
  have hmax : (a * a).raw < max.raw := by decide
  have he : exactProduct a n = (-196610 : ℤ) := by norm_num [exactProduct, a, n]
  have hn : IsWhole n (-2) := by norm_num [IsWhole, n]
  exact ⟨⟨hmin, hmax, error a a hmin hmax⟩, ⟨he, exact a n _ he⟩, ⟨hn, whole a n _ (.inr hn)⟩,
    inverse a n (-2) hn (by decide) (by decide) (by decide)⟩

end BinaryPoint.Scalar
