import Mathlib.Algebra.Ring.Int.Defs
import BinaryPoint.Scalar.Basic

/-!
# Words nearest to integers

Scalars are computed exactly and then saturate, so the word of a result is the exact integer,
clamped to the words. Clamping keeps the order of integers, and the words themselves.

* `raw_saturate`, `raw_add`, `raw_sub`, `raw_neg`: the word of a saturated integer.
* `clamp_mono`, `clamp_eq_self`, `clamp_of_lt`: what clamping keeps.
-/
namespace BinaryPoint

/-- The integer nearest to `n` among those that a word can hold. -/
def clamp (n : ℤ) : ℤ := max (-2 ^ 31) (min n (2 ^ 31 - 1))

theorem clamp_mono {m n : ℤ} (h : m ≤ n) : clamp m ≤ clamp n := by
  unfold clamp
  omega

theorem clamp_eq_self {n : ℤ} (hmin : -2 ^ 31 ≤ n) (hmax : n < 2 ^ 31) : clamp n = n := by
  unfold clamp
  omega

namespace Scalar

/-- Between the ends of the range nothing was clamped. -/
theorem clamp_of_lt {n : ℤ} (hmin : min.raw < clamp n) (hmax : clamp n < max.raw) : clamp n = n := by
  unfold clamp at *
  simp only [min, max] at *
  omega

theorem raw_saturate (n : ℤ) : (saturate n).raw = clamp n := by
  unfold saturate clamp
  dsimp only
  split
  · omega
  · split <;> omega

theorem saturate_raw (s : Scalar) : saturate s.raw = s := by
  have := s.neg_le_raw
  have := s.raw_le
  exact Scalar.ext ((raw_saturate _).trans (clamp_eq_self (by omega) (by omega)))

theorem raw_add (a b : Scalar) : (a + b).raw = clamp (a.raw + b.raw) := raw_saturate _

theorem raw_sub (a b : Scalar) : (a - b).raw = clamp (a.raw - b.raw) := raw_saturate _

theorem raw_neg (a : Scalar) : (-a).raw = clamp (-a.raw) := by
  rw [← Int.zero_sub]
  exact raw_saturate _

end Scalar

end BinaryPoint
