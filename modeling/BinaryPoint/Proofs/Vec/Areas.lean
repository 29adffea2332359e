import BinaryPoint.Proofs.Expression.Broadcasting
import BinaryPoint.Proofs.Scalar.Sums

/-!
# Wedge products and areas

The wedge product of two pairs is a difference of two products, each rounded and clamped by
itself. Products commute, so exchanging the pairs exchanges the two sides of this difference and
nothing else. An area is the wedge product of two differences of points, and it depends on the
points through these differences only.

* `wedge_self`, `wedge_opposite`: the wedge product of a pair with itself, and of pairs exchanged.
* `area_eq_wedge`, `area_cases`: areas as wedge products, and which vectors have none.
* `area_swap`, `area_of_equal`, `area_shift`: points exchanged, equal, and moved together.
* `area_alternating`: all of these.
-/
namespace BinaryPoint.Vec

open Scalar (Opposite)

variable {a b c t v : Vec}

/-! ## Pairs -/

theorem exists_pair (h : v.length = 2) : ∃ x y, v = ⟨x, [y]⟩ := by
  obtain ⟨x, tail⟩ := v
  obtain ⟨y, rfl⟩ := List.length_eq_one_iff.mp (Nat.succ.inj h)
  exact ⟨x, y, rfl⟩

theorem pair_of_length (h : v.length = 2) : ∃ p, v.pair = .ok p := by
  obtain ⟨x, y, rfl⟩ := exists_pair h
  exact ⟨(x, y), rfl⟩

theorem pair_of_length_ne (h : v.length ≠ 2) : v.pair = .error (.lengthMismatch 2 v.length) := by
  unfold pair
  split
  · rename_i x y hv
    rw [← length_components, hv] at h
    exact absurd rfl h
  · rw [length_components]

theorem exists_sub (ha : a.length = 2) (hb : b.length = 2) :
    ∃ u, a.sub b = .ok u ∧ u.length = 2 := by
  obtain ⟨a₀, a₁, rfl⟩ := exists_pair ha
  obtain ⟨b₀, b₁, rfl⟩ := exists_pair hb
  exact ⟨⟨a₀ - b₀, [a₁ - b₁]⟩, rfl, rfl⟩

/-! ## Wedge products -/

theorem wedge_self (h : v.length = 2) : wedge v v = .ok .zero := by
  obtain ⟨x, y, rfl⟩ := exists_pair h
  change Except.ok (y * x - x * y) = _
  rw [Scalar.mul_comm y x, Scalar.sub_self]

theorem wedge_opposite (ha : a.length = 2) (hb : b.length = 2) :
    ∃ s t, wedge a b = .ok s ∧ wedge b a = .ok t ∧ Opposite s t := by
  obtain ⟨a₀, a₁, rfl⟩ := exists_pair ha
  obtain ⟨b₀, b₁, rfl⟩ := exists_pair hb
  refine ⟨a₁ * b₀ - a₀ * b₁, b₁ * a₀ - b₀ * a₁, rfl, rfl, ?_⟩
  rw [Scalar.mul_comm b₁, Scalar.mul_comm b₀]
  exact Scalar.opposite_sub _ _

theorem wedge_zero_left (h : v.length = 2) : wedge ⟨.zero, [.zero]⟩ v = .ok .zero := by
  obtain ⟨x, y, rfl⟩ := exists_pair h
  have zero_mul (s : Scalar) : Scalar.zero * s = .zero := by
    refine Scalar.ext ?_
    rw [Scalar.raw_mul, Scalar.zero, Int.zero_mul]
    rfl
  change Except.ok (.zero * x - .zero * y) = _
  rw [zero_mul, zero_mul, Scalar.sub_self]

theorem wedge_zero_right (h : v.length = 2) : wedge v ⟨.zero, [.zero]⟩ = .ok .zero := by
  obtain ⟨s, t, hs, ht, hst⟩ := wedge_opposite h (b := ⟨.zero, [.zero]⟩) rfl
  rw [wedge_zero_left h] at ht
  cases ht
  have hmin : s ≠ .min := fun hm => absurd (hst.2 hm) (by decide)
  rw [hs, hst.1 hmin]
  rfl

/-! ## Areas -/

theorem area_eq_wedge (ha : a.length = 2) (hb : b.length = 2) (hc : c.length = 2) {u w : Vec}
    (hu : a.sub c = .ok u) (hw : b.sub c = .ok w) : area a b c = wedge u w := by
  obtain ⟨p, hp⟩ := pair_of_length ha
  obtain ⟨q, hq⟩ := pair_of_length hb
  obtain ⟨r, hr⟩ := pair_of_length hc
  simp only [area, hp, hq, hr, hu, hw, bind, Except.bind]

/-- The points are checked in order, and the first that is no pair decides. -/
theorem area_cases (a b c : Vec) :
    (a.length ≠ 2 ∧ area a b c = .error (.lengthMismatch 2 a.length)) ∨
    ((a.length = 2 ∧ b.length ≠ 2) ∧ area a b c = .error (.lengthMismatch 2 b.length)) ∨
    ((a.length = 2 ∧ b.length = 2 ∧ c.length ≠ 2) ∧
      area a b c = .error (.lengthMismatch 2 c.length)) ∨
    (a.length = 2 ∧ b.length = 2 ∧ c.length = 2) ∧ ∃ s, area a b c = .ok s := by
  by_cases ha : a.length = 2
  · obtain ⟨p, hp⟩ := pair_of_length ha
    by_cases hb : b.length = 2
    · obtain ⟨q, hq⟩ := pair_of_length hb
      by_cases hc : c.length = 2
      · obtain ⟨u, hu, hu2⟩ := exists_sub ha hc
        obtain ⟨w, hw, hw2⟩ := exists_sub hb hc
        obtain ⟨s, -, hs, -⟩ := wedge_opposite hu2 hw2
        exact .inr (.inr (.inr ⟨⟨ha, hb, hc⟩, s, (area_eq_wedge ha hb hc hu hw).trans hs⟩))
      · refine .inr (.inr (.inl ⟨⟨ha, hb, hc⟩, ?_⟩))
        simp only [area, hp, hq, pair_of_length_ne hc, bind, Except.bind]
    · refine .inr (.inl ⟨⟨ha, hb⟩, ?_⟩)
      simp only [area, hp, pair_of_length_ne hb, bind, Except.bind]
  · refine .inl ⟨ha, ?_⟩
    simp only [area, pair_of_length_ne ha, bind, Except.bind]

theorem exists_area_iff :
    (∃ s, area a b c = .ok s) ↔ a.length = 2 ∧ b.length = 2 ∧ c.length = 2 := by
  rcases area_cases a b c with ⟨h, he⟩ | ⟨h, he⟩ | ⟨h, he⟩ | ⟨h, hs⟩
  · simp [he, h]
  · simp [he, h]
  · simp [he, h]
  · exact ⟨fun _ => h, fun _ => hs⟩

theorem area_not_pair (h : [a, b, c].find? (fun p => p.length ≠ 2) = some v) :
    area a b c = .error (.lengthMismatch 2 v.length) := by
  rcases area_cases a b c with ⟨hl, he⟩ | ⟨hl, he⟩ | ⟨hl, he⟩ | ⟨hl, -⟩
  all_goals simp [hl] at h
  all_goals rw [he, h]

theorem area_swap (ha : a.length = 2) (hb : b.length = 2) (hc : c.length = 2) :
    ∃ s t, area a b c = .ok s ∧ area b a c = .ok t ∧ Opposite s t := by
  obtain ⟨u, hu, hu2⟩ := exists_sub ha hc
  obtain ⟨w, hw, hw2⟩ := exists_sub hb hc
  rw [area_eq_wedge ha hb hc hu hw, area_eq_wedge hb ha hc hw hu]
  exact wedge_opposite hu2 hw2

theorem sub_self (h : v.length = 2) : v.sub v = .ok ⟨.zero, [.zero]⟩ := by
  obtain ⟨x, y, rfl⟩ := exists_pair h
  change Except.ok (⟨x - x, [y - y]⟩ : Vec) = _
  rw [Scalar.sub_self, Scalar.sub_self]

/-- Two equal points make a difference of zero, or two equal differences. -/
theorem area_of_equal (ha : a.length = 2) (hb : b.length = 2) (hc : c.length = 2)
    (h : a = b ∨ b = c ∨ a = c) : area a b c = .ok .zero := by
  obtain ⟨u, hu, hu2⟩ := exists_sub ha hc
  obtain ⟨w, hw, hw2⟩ := exists_sub hb hc
  rcases h with rfl | rfl | rfl
  · rw [area_eq_wedge ha ha hc hu hu, wedge_self hu2]
  · rw [area_eq_wedge ha hb hb hu (sub_self hb), wedge_zero_right hu2]
  · rw [area_eq_wedge ha hb ha (sub_self ha) hw, wedge_zero_left hw2]

/-! ## Points moved together -/

/-- What the second vector supplies at each place of the first can be added there. -/
def AddsInRange (v t : Vec) : Prop := ∀ i < v.length, ∀ x ∈ v.components[i]?,
  ∀ y ∈ supplied t.components i, -2 ^ 31 ≤ x.raw + y.raw ∧ x.raw + y.raw < 2 ^ 31

instance (v t : Vec) : Decidable (AddsInRange v t) := by unfold AddsInRange; infer_instance

/-- A pair that is moved is moved by two scalars, which may be the same single component. -/
theorem exists_shift (ht : t.length = 2 ∨ t.length = 1) : ∃ x y,
    supplied t.components 0 = some x ∧ supplied t.components 1 = some y ∧
      ∀ p₀ p₁, add ⟨p₀, [p₁]⟩ t = .ok ⟨p₀ + x, [p₁ + y]⟩ := by
  rcases ht with ht | ht
  · obtain ⟨x, y, rfl⟩ := exists_pair ht
    exact ⟨x, y, rfl, rfl, fun _ _ => rfl⟩
  · obtain ⟨x, tail⟩ := t
    cases List.length_eq_zero_iff.mp (Nat.succ.inj ht)
    exact ⟨x, x, rfl, rfl, fun _ _ => rfl⟩

theorem exists_add (hv : v.length = 2) (ht : t.length = 2 ∨ t.length = 1) :
    ∃ v', v.add t = .ok v' ∧ v'.length = 2 := by
  obtain ⟨p₀, p₁, rfl⟩ := exists_pair hv
  obtain ⟨x, y, -, -, hadd⟩ := exists_shift ht
  exact ⟨_, hadd p₀ p₁, rfl⟩

theorem sub_of_add (ha : a.length = 2) (hb : b.length = 2) (ht : t.length = 2 ∨ t.length = 1)
    (hat : AddsInRange a t) (hbt : AddsInRange b t) {a' b' : Vec} (ha' : a.add t = .ok a')
    (hb' : b.add t = .ok b') : a'.sub b' = a.sub b := by
  obtain ⟨a₀, a₁, rfl⟩ := exists_pair ha
  obtain ⟨b₀, b₁, rfl⟩ := exists_pair hb
  obtain ⟨x, y, hx, hy, hadd⟩ := exists_shift ht
  rw [hadd] at ha' hb'
  cases ha'
  cases hb'
  have h₀ : (a₀ + x) - (b₀ + x) = a₀ - b₀ :=
    Scalar.add_sub_add (hat 0 Nat.two_pos a₀ rfl x hx) (hbt 0 Nat.two_pos b₀ rfl x hx)
  have h₁ : (a₁ + y) - (b₁ + y) = a₁ - b₁ :=
    Scalar.add_sub_add (hat 1 Nat.one_lt_two a₁ rfl y hy) (hbt 1 Nat.one_lt_two b₁ rfl y hy)
  change Except.ok (⟨_, [_]⟩ : Vec) = Except.ok ⟨_, [_]⟩
  rw [h₀, h₁]

theorem area_shift (ha : a.length = 2) (hb : b.length = 2) (hc : c.length = 2)
    (ht : t.length = 2 ∨ t.length = 1) (hat : AddsInRange a t) (hbt : AddsInRange b t)
    (hct : AddsInRange c t) : ∃ a' b' c', a.add t = .ok a' ∧ b.add t = .ok b' ∧ c.add t = .ok c' ∧
      area a' b' c' = area a b c := by
  obtain ⟨a', ha', ha2⟩ := exists_add ha ht
  obtain ⟨b', hb', hb2⟩ := exists_add hb ht
  obtain ⟨c', hc', hc2⟩ := exists_add hc ht
  obtain ⟨u, hu, -⟩ := exists_sub ha hc
  obtain ⟨w, hw, -⟩ := exists_sub hb hc
  refine ⟨a', b', c', ha', hb', hc', ?_⟩
  rw [area_eq_wedge ha hb hc hu hw]
  exact area_eq_wedge ha2 hb2 hc2 ((sub_of_add ha hc ht hat hct ha' hc').trans hu)
    ((sub_of_add hb hc ht hbt hct hb' hc').trans hw)

/-- **Wedge products and areas.** The wedge product of a pair with itself is zero, and exchanging
the pairs negates it, but for the least scalar, beside which the greatest stands. Three vectors
span an area exactly if all are pairs, and the first that is none is reported otherwise. The area
has the opposite sign, in the same sense, when the first two points are exchanged; it is zero
when two points are equal; and it stays when all points are moved by sums that do not saturate. -/
theorem area_alternating :
    (∀ v : Vec, v.length = 2 → wedge v v = .ok .zero) ∧
    (∀ a b : Vec, a.length = 2 → b.length = 2 →
      ∃ s t, wedge a b = .ok s ∧ wedge b a = .ok t ∧ Opposite s t) ∧
    (∀ a b c : Vec, ((∃ s, area a b c = .ok s) ↔ a.length = 2 ∧ b.length = 2 ∧ c.length = 2) ∧
      ∀ v, [a, b, c].find? (fun p => p.length ≠ 2) = some v →
        area a b c = .error (.lengthMismatch 2 v.length)) ∧
    ∀ a b c : Vec, a.length = 2 → b.length = 2 → c.length = 2 →
      (∃ s t, area a b c = .ok s ∧ area b a c = .ok t ∧ Opposite s t) ∧
      (a = b ∨ b = c ∨ a = c → area a b c = .ok .zero) ∧
      ∀ t : Vec, t.length = 2 ∨ t.length = 1 →
        AddsInRange a t → AddsInRange b t → AddsInRange c t →
          ∃ a' b' c', a.add t = .ok a' ∧ b.add t = .ok b' ∧ c.add t = .ok c' ∧
            area a' b' c' = area a b c :=
  ⟨fun _ => wedge_self, fun _ _ => wedge_opposite,
    fun _ _ _ => ⟨exists_area_iff, fun _ => area_not_pair⟩,
    fun _ _ _ ha hb hc =>
      ⟨area_swap ha hb hc, area_of_equal ha hb hc, fun _ => area_shift ha hb hc⟩⟩

/-- Pairs whose wedge product is the least scalar, a triangle that is moved by a single component,
two points that are equal, and a point that is no pair. -/
theorem area_alternating_least :
    let a : Vec := ⟨.ofWhole 200, [.ofWhole (-200)]⟩
    let b : Vec := ⟨.ofWhole 200, [.ofWhole 200]⟩
    let c : Vec := ⟨.zero, [.one]⟩
    let t : Vec := .ofScalar (.ofWhole 30000)
    ((a.length = 2 ∧ b.length = 2 ∧ c.length = 2) ∧ wedge a a = .ok .zero ∧
      wedge a b = .ok .min ∧ ∃ s, wedge b a = .ok s ∧ Opposite .min s) ∧
    ([a, t, b].find? (fun p => p.length ≠ 2) = some t ∧
      area a t b = .error (.lengthMismatch 2 1)) ∧
    (∃ s, area a b c = .ok s ∧ ∃ s', area b a c = .ok s' ∧ Opposite s s') ∧
    area a b a = .ok .zero ∧
    (t.length = 1 ∧ AddsInRange a t ∧ AddsInRange b t ∧ AddsInRange c t) ∧
      ∃ a' b' c', a.add t = .ok a' ∧ b.add t = .ok b' ∧ c.add t = .ok c' ∧
        area a' b' c' = area a b c := by
  intro a b c t
  obtain ⟨self, opposite, notPair, pairs⟩ := area_alternating
  have ha : a.length = 2 := rfl
  have hb : b.length = 2 := rfl
  have hc : c.length = 2 := rfl
  have ht : t.length = 1 := rfl
  have least : wedge a b = .ok .min := by decide +kernel
  have first : [a, t, b].find? (fun p => p.length ≠ 2) = some t := by decide
  have hat : AddsInRange a t := by decide
  have hbt : AddsInRange b t := by decide
  have hct : AddsInRange c t := by decide
  obtain ⟨s, s', hs, hs', hopp⟩ := opposite a b ha hb
  rw [least] at hs
  cases hs
  obtain ⟨⟨r, r', hr, hr', hopp'⟩, -, shift⟩ := pairs a b c ha hb hc
  obtain ⟨-, equal, -⟩ := pairs a b a ha hb ha
  exact ⟨⟨⟨ha, hb, hc⟩, self a ha, least, s', hs', hopp⟩, ⟨first, (notPair a t b).2 t first⟩,
    ⟨r, hr, r', hr', hopp'⟩, equal (.inr (.inr rfl)), ⟨ht, hat, hbt, hct⟩,
    shift t (.inr ht) hat hbt hct⟩

end BinaryPoint.Vec
