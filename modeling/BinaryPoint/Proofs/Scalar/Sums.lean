import Mathlib.Algebra.BigOperators.Group.List.Basic
import Mathlib.Algebra.Order.BigOperators.Group.List
import Mathlib.Data.List.Induction
import Mathlib.Data.List.Infix
import BinaryPoint.Proofs.Scalar.Saturation

/-!
# Sums and differences that saturate

A difference and the difference the other way round are negatives of each other but at one end:
the least word is the negative of no word, and beside it stands the greatest. A sum of many
scalars saturates after each of them, so it depends on their order; it is the clamped exact sum
as long as no step leads back from beyond the range.

* `opposite_sub`, `add_sub_add`: differences exchanged, and differences of sums.
* `Outward`: a step that does not lead back from beyond the range.
* `raw_runningSum`: the sum of steps of this kind, for any exact sums before them.
* `raw_runningSum_of_inRange`, `raw_runningSum_of_nonneg`, `raw_runningSum_of_nonpos`: exact sums
  that stay in the range, and steps of one sign.
-/
namespace BinaryPoint

namespace Scalar

/-! ## Differences -/

/-- Negatives of each other, where the least scalar stands beside the greatest. -/
def Opposite (x y : Scalar) : Prop := (x ≠ min → x = -y) ∧ (x = min → y = max)

theorem sub_self (a : Scalar) : a - a = zero := by
  refine Scalar.ext ?_
  rw [raw_sub, Int.sub_self]
  rfl

/-- Below the least word both differences saturate, and at it one of them does. -/
theorem opposite_sub (a b : Scalar) : Opposite (a - b) (b - a) := by
  simp only [Opposite, ne_eq, Scalar.ext_iff, raw_neg, raw_sub, min, max]
  unfold clamp
  omega

/-- Sums that do not saturate have the difference of their first summands. -/
theorem add_sub_add {a b t : Scalar} (ha : -2 ^ 31 ≤ a.raw + t.raw ∧ a.raw + t.raw < 2 ^ 31)
    (hb : -2 ^ 31 ≤ b.raw + t.raw ∧ b.raw + t.raw < 2 ^ 31) : (a + t) - (b + t) = a - b := by
  refine Scalar.ext ?_
  rw [raw_sub, raw_sub, raw_add, raw_add, clamp_eq_self ha.1 ha.2, clamp_eq_self hb.1 hb.2,
    Int.add_sub_add_right]

end Scalar

/-! ## Sums of many scalars -/

/-- From `n` beyond the range the step `x` does not lead back. -/
def Outward (n x : ℤ) : Prop := (n < -2 ^ 31 → x ≤ 0) ∧ (2 ^ 31 ≤ n → 0 ≤ x)

theorem clamp_clamp_add {n x : ℤ} (h : Outward n x) : clamp (clamp n + x) = clamp (n + x) := by
  unfold Outward at h
  unfold clamp
  omega

namespace Scalar

/-- The sum of the scalars in order, saturating at every step. -/
def runningSum (xs : List Scalar) : Scalar := xs.foldl (· + ·) zero

/-- The sum of the words. -/
def exactSum (xs : List Scalar) : ℤ := (xs.map raw).sum

theorem runningSum_concat (xs : List Scalar) (x : Scalar) :
    runningSum (xs ++ [x]) = runningSum xs + x := by
  rw [runningSum, List.foldl_append]
  rfl

theorem exactSum_concat (xs : List Scalar) (x : Scalar) :
    exactSum (xs ++ [x]) = exactSum xs + x.raw := by
  rw [exactSum, List.map_append, List.sum_append, List.map_singleton, List.sum_singleton]
  rfl

theorem exactSum_nonneg {xs : List Scalar} (h : ∀ x ∈ xs, 0 ≤ x.raw) : 0 ≤ exactSum xs :=
  List.sum_nonneg (List.forall_mem_map.mpr h)

theorem exactSum_nonpos {xs : List Scalar} (h : ∀ x ∈ xs, x.raw ≤ 0) : exactSum xs ≤ 0 := by
  have hs : exactSum xs ≤ (xs.map raw).length • 0 :=
    List.sum_le_card_nsmul _ 0 (List.forall_mem_map.mpr h)
  rwa [nsmul_zero] at hs

/-- The accumulator is the clamped exact sum of the scalars before each step. -/
theorem raw_runningSum {xs : List Scalar}
    (h : ∀ before x after, xs = before ++ x :: after → Outward (exactSum before) x.raw) :
    (runningSum xs).raw = clamp (exactSum xs) := by
  induction xs using List.reverseRecOn with
  | nil => rfl
  | append_singleton xs x ih =>
    have hxs : (runningSum xs).raw = clamp (exactSum xs) := by
      refine ih fun before y after he => h before y (after ++ [x]) ?_
      rw [he, List.append_assoc, List.cons_append]
    rw [runningSum_concat, exactSum_concat, raw_add, hxs]
    exact clamp_clamp_add (h xs x [] rfl)

/-- The exact sum of the first scalars, however many, is a word. -/
def PrefixesInRange (xs : List Scalar) : Prop :=
  ∀ before, before <+: xs → -2 ^ 31 ≤ exactSum before ∧ exactSum before < 2 ^ 31

instance (xs : List Scalar) : Decidable (PrefixesInRange xs) :=
  decidable_of_iff (∀ before ∈ xs.inits, -2 ^ 31 ≤ exactSum before ∧ exactSum before < 2 ^ 31)
    (forall_congr' fun before => by rw [List.mem_inits])

theorem raw_runningSum_of_inRange {xs : List Scalar} (h : PrefixesInRange xs) :
    (runningSum xs).raw = exactSum xs := by
  rw [raw_runningSum fun before x after he => ?_]
  · exact clamp_eq_self (h xs (List.prefix_refl xs)).1 (h xs (List.prefix_refl xs)).2
  · have hb := h before ⟨x :: after, he.symm⟩
    exact ⟨fun hl => by omega, fun hu => by omega⟩

theorem raw_runningSum_of_nonneg {xs : List Scalar} (h : ∀ x ∈ xs, 0 ≤ x.raw) :
    (runningSum xs).raw = clamp (exactSum xs) := by
  refine raw_runningSum fun before x after he => ?_
  subst he
  have hb : 0 ≤ exactSum before := exactSum_nonneg fun y hy => h y (List.mem_append_left _ hy)
  exact ⟨fun hl => by omega, fun _ => h x (by simp)⟩

theorem raw_runningSum_of_nonpos {xs : List Scalar} (h : ∀ x ∈ xs, x.raw ≤ 0) :
    (runningSum xs).raw = clamp (exactSum xs) := by
  refine raw_runningSum fun before x after he => ?_
  subst he
  have hb : exactSum before ≤ 0 := exactSum_nonpos fun y hy => h y (List.mem_append_left _ hy)
  exact ⟨fun _ => h x (by simp), fun hu => by omega⟩

end Scalar

end BinaryPoint
