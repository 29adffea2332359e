import Mathlib.Data.List.Zip
import BinaryPoint.Proofs.Scalar.Products
import BinaryPoint.Proofs.Scalar.Sums
import BinaryPoint.Vec

/-!
# Dot products

A dot product is the running sum of the products at each place, which are rounded and clamped by
themselves. The sum saturates at every step, so exchanging places can change it while exchanging
the two vectors cannot. There is no broadcasting: a single component meets a single one only.

* `products`: the products at each place.
* `dot_of_length_eq`, `products_comm`: a dot product as a running sum, from either side.
* `dot_exactSum`: when it is the exact sum of the products, or this sum clamped.
-/
namespace BinaryPoint.Vec

variable {a b : Vec}

/-- The products of the components at the same place. -/
def products (a b : Vec) : List Scalar := (a.components.zip b.components).map fun p => p.1 * p.2

theorem products_comm (a b : Vec) : products a b = products b a := by
  rw [products, products, ← List.zip_swap a.components, List.map_map]
  exact List.map_congr_left fun p _ => Scalar.mul_comm p.1 p.2

theorem dot_of_length_eq (h : a.length = b.length) :
    dot a b = .ok (Scalar.runningSum (products a b)) := by
  rw [dot, if_pos h, Scalar.runningSum, products, List.foldl_map]

theorem dot_comm (h : a.length = b.length) : dot a b = dot b a := by
  rw [dot_of_length_eq h, dot_of_length_eq h.symm, products_comm]

/-- **Dot products.** Vectors of different lengths have none, also where one of the lengths is `1`.
Vectors of equal length have one, and the same in either order. It is the exact sum of the products
if the sum of the first of them, however many, is always a word; and if no two of the products have
different signs, it is their exact sum clamped. -/
theorem dot_exactSum (a b : Vec) :
    (a.length ≠ b.length → dot a b = .error (.lengthMismatch a.length b.length)) ∧
    (a.length = b.length → dot a b = dot b a ∧ ∃ s, dot a b = .ok s ∧
      (Scalar.PrefixesInRange (products a b) → s.raw = Scalar.exactSum (products a b)) ∧
      ((∀ x ∈ products a b, 0 ≤ x.raw) ∨ (∀ x ∈ products a b, x.raw ≤ 0) →
        s.raw = clamp (Scalar.exactSum (products a b)))) := by
  refine ⟨fun h => if_neg h, fun h => ⟨dot_comm h, _, dot_of_length_eq h, ?_, ?_⟩⟩
  · exact Scalar.raw_runningSum_of_inRange
  · rintro (hs | hs)
    · exact Scalar.raw_runningSum_of_nonneg hs
    · exact Scalar.raw_runningSum_of_nonpos hs

/-- Products of both signs, two that are too large together, and a single component. -/
theorem dot_exactSum_two_places :
    let a : Vec := ⟨.ofWhole 200, [.ofWhole 200]⟩
    let b : Vec := ⟨.ofWhole 150, [.ofWhole 150]⟩
    let c : Vec := ⟨.ofWhole 150, [.ofWhole (-151)]⟩
    let single : Vec := .ofScalar .one
    (a.length = c.length ∧ Scalar.PrefixesInRange (products a c) ∧
      ∃ s, dot a c = .ok s ∧ s.raw = -200 * 65536) ∧
    (a.length = b.length ∧ (∀ x ∈ products a b, 0 ≤ x.raw) ∧
      ∃ s, dot a b = .ok s ∧ s.raw = 2147483647) ∧
    single.length ≠ a.length ∧ dot single a = .error (.lengthMismatch 1 2) := by
  intro a b c single
  have hc : a.length = c.length := rfl
  have hb : a.length = b.length := rfl
  have hs : single.length ≠ a.length := by decide
  have inRange : Scalar.PrefixesInRange (products a c) := by decide +kernel
  have nonneg : ∀ x ∈ products a b, 0 ≤ x.raw := by decide +kernel
  obtain ⟨-, s, hs₁, exact₁, -⟩ := (dot_exactSum a c).2 hc
  obtain ⟨-, t, ht₁, -, clamped⟩ := (dot_exactSum a b).2 hb
  refine ⟨⟨hc, inRange, s, hs₁, ?_⟩, ⟨hb, nonneg, t, ht₁, ?_⟩, hs, (dot_exactSum single a).1 hs⟩
  · rw [exact₁ inRange]
    decide +kernel
  · rw [clamped (.inl nonneg)]
    decide +kernel

/-- The order of the places matters: the first two products saturate in front of the third. -/
example :
    dot ⟨.ofWhole 200, [.ofWhole 200, .ofWhole (-200)]⟩
        ⟨.ofWhole 150, [.ofWhole 150, .ofWhole 150]⟩ = .ok { raw := 2767 * 65536 + 65535 } ∧
    dot ⟨.ofWhole 200, [.ofWhole (-200), .ofWhole 200]⟩
        ⟨.ofWhole 150, [.ofWhole 150, .ofWhole 150]⟩ = .ok (.ofWhole 30000) := by
  decide +kernel

end BinaryPoint.Vec
