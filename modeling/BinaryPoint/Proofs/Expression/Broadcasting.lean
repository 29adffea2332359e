import Mathlib.Data.List.Zip
import BinaryPoint.Proofs.Expression.Calls
import BinaryPoint.Proofs.Scalar.Products

/-!
# Operators on scalars and vectors

A scalar acts as a vector of one component, and a single component meets every component of the
other operand. Three branches decide which operand is repeated, and an operator has its own case
for each two kinds of operands; all of them apply it to the same pairs, with the components of the
left operand on the left.

* `supplied`: the component that an operand has at a place.
* `Vec.meeting_cases`, `Vec.meeting_supplied`: the pairs that meet.
* `Vec.combine_supplied`, `Vec.combine_comm`: an operation along two vectors.
* `Operation.combine_cases`: its three outcomes.
* `Quantity.apply_eq`, `Quantity.apply_broadcast`: the operators on scalars and vectors.
-/
namespace BinaryPoint

/-- The component at the place `i`, where a single component is at every place. -/
def supplied (xs : List Scalar) (i : ℕ) : Option Scalar :=
  if xs.length = 1 then xs[0]? else xs[i]?

theorem supplied_of_lt {xs : List Scalar} {i : ℕ} (h : i < xs.length) : supplied xs i = xs[i]? := by
  unfold supplied
  split
  · rw [show i = 0 by omega]
  · rfl

theorem mem_of_supplied {xs : List Scalar} {i : ℕ} {x : Scalar} (h : supplied xs i = some x) :
    x ∈ xs := by
  unfold supplied at h
  split at h
  · exact List.mem_of_getElem? h
  · exact List.mem_of_getElem? h

namespace Vec

variable {a b : Vec}

@[simp] theorem length_components (v : Vec) : v.components.length = v.length := rfl

theorem length_pos (v : Vec) : 0 < v.length := Nat.succ_pos _

theorem exists_supplied (v : Vec) {i : ℕ} (h : i < v.length) :
    ∃ x, supplied v.components i = some x ∧ v.components[i]? = some x := by
  rw [supplied_of_lt h]
  exact ⟨_, List.getElem?_eq_getElem h, List.getElem?_eq_getElem h⟩

theorem supplied_of_single (h : a.length = 1) (i : ℕ) : supplied a.components i = some a.head :=
  if_pos h

/-! ## The components that meet -/

/-- All pairs of components, the first included. -/
def meeting (a b : Vec) : Except NumberError (List (Scalar × Scalar)) :=
  (partners a b).map ((a.head, b.head) :: ·)

theorem meeting_cases (a b : Vec) :
    (a.length = b.length ∧ meeting a b = .ok (a.components.zip b.components)) ∨
    (b.length = 1 ∧ meeting a b = .ok (a.components.map fun s => (s, b.head))) ∨
    (a.length = 1 ∧ meeting a b = .ok (b.components.map fun s => (a.head, s))) ∨
    (a.length ≠ b.length ∧ a.length ≠ 1 ∧ b.length ≠ 1) ∧
      meeting a b = .error (.lengthMismatch a.length b.length) := by
  unfold meeting partners
  split
  · rename_i h
    exact .inl ⟨h, rfl⟩
  · split
    · rename_i h
      exact .inr (.inl ⟨h, rfl⟩)
    · split
      · rename_i h
        exact .inr (.inr (.inl ⟨h, rfl⟩))
      · rename_i he hb ha
        exact .inr (.inr (.inr ⟨⟨he, ha, hb⟩, rfl⟩))

/-- At each place there is the pair of what the two vectors have there. -/
theorem meeting_supplied {ps : List (Scalar × Scalar)} (h : meeting a b = .ok ps) :
    ps.length = max a.length b.length ∧ ∀ i < ps.length, ∃ x y,
      supplied a.components i = some x ∧ supplied b.components i = some y ∧
        ps[i]? = some (x, y) := by
  have ha := a.length_pos
  have hb := b.length_pos
  rcases meeting_cases a b with ⟨hl, hm⟩ | ⟨hl, hm⟩ | ⟨hl, hm⟩ | ⟨-, hm⟩
  all_goals rw [hm] at h; cases h
  · have hlen : (a.components.zip b.components).length = a.length := by
      rw [List.length_zip]; exact min_eq_left hl.le
    refine ⟨by omega, fun i hi => ?_⟩
    obtain ⟨x, hx, hx'⟩ := a.exists_supplied (show i < a.length by omega)
    obtain ⟨y, hy, hy'⟩ := b.exists_supplied (show i < b.length by omega)
    exact ⟨x, y, hx, hy, List.getElem?_zip_eq_some.mpr ⟨hx', hy'⟩⟩
  · have hlen : (a.components.map fun s => (s, b.head)).length = a.length := List.length_map _
    refine ⟨by omega, fun i hi => ?_⟩
    obtain ⟨x, hx, hx'⟩ := a.exists_supplied (show i < a.length by omega)
    exact ⟨x, b.head, hx, supplied_of_single hl i, by rw [List.getElem?_map, hx']; rfl⟩
  · have hlen : (b.components.map fun s => (a.head, s)).length = b.length := List.length_map _
    refine ⟨by omega, fun i hi => ?_⟩
    obtain ⟨y, hy, hy'⟩ := b.exists_supplied (show i < b.length by omega)
    exact ⟨a.head, y, supplied_of_single hl i, hy, by rw [List.getElem?_map, hy']; rfl⟩

/-- The second components of the pairs are those of the second vector. -/
theorem mem_meeting_snd {ps : List (Scalar × Scalar)} (h : meeting a b = .ok ps) {y : Scalar} :
    (∃ p ∈ ps, p.2 = y) ↔ y ∈ b.components := by
  obtain ⟨hlen, hat⟩ := meeting_supplied h
  constructor
  · rintro ⟨p, hp, rfl⟩
    obtain ⟨i, hi, hp⟩ := List.getElem_of_mem hp
    obtain ⟨x, y, -, hy, he⟩ := hat i hi
    rw [List.getElem?_eq_getElem hi, hp] at he
    cases he
    exact mem_of_supplied hy
  · intro hy
    obtain ⟨i, hi, rfl⟩ := List.getElem_of_mem hy
    have hb : i < b.length := hi
    obtain ⟨x, y, -, hy, he⟩ := hat i (by omega)
    rw [supplied_of_lt hi, List.getElem?_eq_getElem hi] at hy
    cases hy
    exact ⟨_, List.mem_of_getElem? he, rfl⟩

theorem meeting_swap {ps : List (Scalar × Scalar)} (h : meeting a b = .ok ps) :
    meeting b a = .ok (ps.map Prod.swap) := by
  unfold meeting partners at h ⊢
  split at h
  · rename_i he
    cases h
    rw [if_pos he.symm, ← List.zip_swap]
    rfl
  · rename_i he
    rw [if_neg (Ne.symm he)]
    split at h
    · rename_i hb
      cases h
      rw [if_neg (by omega), if_pos hb]
      simp [Except.map]
    · split at h
      · rename_i ha
        cases h
        rw [if_pos ha]
        simp [Except.map]
      · cases h

/-! ## Operations along two vectors -/

/-- The components of the result, from the pairs that meet. -/
theorem map_components_combine (op : Scalar → Scalar → Except NumberError Scalar) (a b : Vec) :
    (combine op a b).map components = meeting a b >>= List.mapM fun p => op p.1 p.2 := by
  unfold combine meeting
  cases partners a b with
  | error e => rfl
  | ok ps =>
    change _ = ((a.head, b.head) :: ps).mapM fun p => op p.1 p.2
    rw [List.mapM_cons]
    cases op a.head b.head with
    | error e => rfl
    | ok z =>
      cases ht : ps.mapM fun p => op p.1 p.2 with
      | error e => simp [bind, Except.bind, ht, Except.map]
      | ok zs => simp [bind, Except.bind, ht, Except.map, pure, Except.pure, components]

variable {op : Scalar → Scalar → Except NumberError Scalar}

theorem combine_eq_error {ps : List (Scalar × Scalar)} (hm : meeting a b = .ok ps)
    {e : NumberError} (h : combine op a b = .error e) : ∃ p ∈ ps, op p.1 p.2 = .error e := by
  have hc := map_components_combine op a b
  rw [h, hm] at hc
  exact mapM_eq_error hc.symm

theorem components_inj {v w : Vec} : v.components = w.components ↔ v = w := by
  constructor
  · intro h
    rw [components, components, List.cons.injEq] at h
    exact Vec.ext h.1 h.2
  · rintro rfl
    rfl

theorem combine_eq_ok {v : Vec} : combine op a b = .ok v ↔ ∃ ps, meeting a b = .ok ps ∧
    List.Forall₂ (fun p z => op p.1 p.2 = .ok z) ps v.components := by
  have hc := map_components_combine op a b
  simp only [← mapM_eq_ok, ← bind_eq_ok]
  rw [← hc]
  cases combine op a b with
  | error e => exact ⟨nofun, nofun⟩
  | ok w => rw [Except.map, Except.ok.injEq, Except.ok.injEq, components_inj]

/-- The result has the value of the operation at each place. -/
theorem combine_supplied {v : Vec} (h : combine op a b = .ok v) :
    v.length = max a.length b.length ∧ ∀ i < v.length, ∃ x y z,
      supplied a.components i = some x ∧ supplied b.components i = some y ∧
        v.components[i]? = some z ∧ op x y = .ok z := by
  obtain ⟨ps, hm, hf⟩ := combine_eq_ok.mp h
  obtain ⟨hlen, hat⟩ := meeting_supplied hm
  obtain ⟨hps, hget⟩ := List.forall₂_iff_get.mp hf
  have hv : ps.length = v.length := hps
  refine ⟨by omega, fun i hi => ?_⟩
  have hi' : i < ps.length := by omega
  obtain ⟨x, y, hx, hy, hp⟩ := hat i hi'
  refine ⟨x, y, v.components.get ⟨i, hi⟩, hx, hy, List.getElem?_eq_getElem hi, ?_⟩
  have hz := hget i hi' hi
  rw [List.getElem?_eq_getElem hi', Option.some.injEq] at hp
  rwa [List.get_eq_getElem, hp] at hz

theorem combine_comm (hop : ∀ s t, op s t = op t s) {v : Vec} (h : combine op a b = .ok v) :
    combine op b a = .ok v := by
  obtain ⟨ps, hm, hf⟩ := combine_eq_ok.mp h
  refine combine_eq_ok.mpr ⟨_, meeting_swap hm, List.forall₂_map_left_iff.mpr ?_⟩
  refine hf.imp fun p z hz => ?_
  rw [← hz]
  exact hop _ _

end Vec

/-! ## Operators -/

namespace Operation

/-- Only a division by zero has no result. -/
theorem onScalars_eq_error {op : Operation} {s t : Scalar} {e : NumberError} :
    op.onScalars s t = .error e ↔ (op = .divide ∧ t = .zero) ∧ e = .divisionByZero := by
  have hz : t.raw = 0 ↔ t = .zero := ⟨fun h => Scalar.ext h, fun h => by rw [h]; rfl⟩
  cases op with
  | divide =>
    simp only [onScalars, Scalar.div, hz]
    split
    · rename_i ht
      simp [ht, eq_comm]
    · rename_i ht
      simp [ht]
  | add => simp [onScalars]
  | subtract => simp [onScalars]
  | multiply => simp [onScalars]

theorem onScalars_comm {op : Operation} (h : op = .add ∨ op = .multiply) (s t : Scalar) :
    op.onScalars s t = op.onScalars t s := by
  rcases h with rfl | rfl
  · exact congrArg (Except.ok ∘ Scalar.saturate) (Int.add_comm s.raw t.raw)
  · exact congrArg Except.ok (Scalar.mul_comm s t)

theorem onVecs_eq (op : Operation) (a b : Vec) : op.onVecs a b = Vec.combine op.onScalars a b := by
  cases op <;> rfl

/-- The divisor has a component that is zero. -/
def ByZero (op : Operation) (ys : List Scalar) : Prop := op = .divide ∧ .zero ∈ ys

/-- A pair that is refused is one with a zero behind it, so any zero decides. -/
theorem combine_of_meeting (op : Operation) {a b : Vec} {ps : List (Scalar × Scalar)}
    (hm : Vec.meeting a b = .ok ps) :
    (op.ByZero b.components ∧ Vec.combine op.onScalars a b = .error .divisionByZero) ∨
      ¬op.ByZero b.components ∧ ∃ v, Vec.combine op.onScalars a b = .ok v := by
  have hsnd : (∃ p ∈ ps, p.2 = .zero) ↔ .zero ∈ b.components := Vec.mem_meeting_snd hm
  cases hr : Vec.combine op.onScalars a b with
  | error e =>
    obtain ⟨p, hp, he⟩ := Vec.combine_eq_error hm hr
    obtain ⟨⟨hop, hz⟩, rfl⟩ := onScalars_eq_error.mp he
    exact .inl ⟨⟨hop, hsnd.mp ⟨p, hp, hz⟩⟩, rfl⟩
  | ok v =>
    refine .inr ⟨fun ⟨hop, hz⟩ => ?_, v, rfl⟩
    obtain ⟨p, hp, hz⟩ := hsnd.mpr hz
    obtain ⟨ps', hm', hf⟩ := Vec.combine_eq_ok.mp hr
    rw [hm] at hm'
    cases hm'
    obtain ⟨s, hs⟩ := exists_of_mapM_eq_ok (mapM_eq_ok.mpr hf) hp
    rw [onScalars_eq_error.mpr ⟨⟨hop, hz⟩, rfl⟩] at hs
    cases hs

/-- All that an operation along two vectors can do. -/
theorem combine_cases (op : Operation) (a b : Vec) :
    ((a.length ≠ b.length ∧ a.length ≠ 1 ∧ b.length ≠ 1) ∧
      Vec.combine op.onScalars a b = .error (.lengthMismatch a.length b.length)) ∨
    (a.length = b.length ∨ a.length = 1 ∨ b.length = 1) ∧
      ((op.ByZero b.components ∧ Vec.combine op.onScalars a b = .error .divisionByZero) ∨
        ¬op.ByZero b.components ∧ ∃ v, Vec.combine op.onScalars a b = .ok v) := by
  rcases Vec.meeting_cases a b with ⟨hl, hm⟩ | ⟨hl, hm⟩ | ⟨hl, hm⟩ | ⟨hl, hm⟩
  · exact .inr ⟨.inl hl, op.combine_of_meeting hm⟩
  · exact .inr ⟨.inr (.inr hl), op.combine_of_meeting hm⟩
  · exact .inr ⟨.inr (.inl hl), op.combine_of_meeting hm⟩
  · refine .inl ⟨hl, ?_⟩
    have hc := Vec.map_components_combine op.onScalars a b
    rw [hm] at hc
    cases hr : Vec.combine op.onScalars a b with
    | ok v => rw [hr] at hc; cases hc
    | error e => rw [hr] at hc; cases hc; rfl

end Operation

namespace Quantity

/-- The components of an operand. An integer is none. -/
def components : Quantity → List Scalar
  | .scalar s => [s]
  | .vector v => v.components
  | .integer _ => []

/-- The operand is the vector, or the scalar that is its only component. -/
inductive ActsAs : Quantity → Vec → Prop where
  | scalar (s : Scalar) : ActsAs (.scalar s) (.ofScalar s)
  | vector (v : Vec) : ActsAs (.vector v) v

theorem exists_actsAs {q : Quantity} (h : q.kind ≠ .integer) :
    ∃ v, ActsAs q v ∧ v.components = q.components := by
  cases q with
  | scalar s => exact ⟨_, .scalar s, rfl⟩
  | vector v => exact ⟨_, .vector v, rfl⟩
  | integer n => exact absurd rfl h

/-- The vector as a result: a scalar if both operands are scalars. -/
def result : Quantity → Quantity → Vec → Quantity
  | .scalar _, .scalar _, v => .scalar v.head
  | _, _, v => .vector v

theorem kind_result (l r : Quantity) (v : Vec) :
    (result l r v).kind = if l.kind = .scalar ∧ r.kind = .scalar then .scalar else .vector := by
  cases l <;> cases r <;> rfl

theorem result_comm (l r : Quantity) (v : Vec) : result l r v = result r l v := by
  cases l <;> cases r <;> rfl

variable {op : Operation} {l r : Quantity} {a b : Vec}

theorem combine_ofScalar (op : Operation) (s t : Scalar) :
    Vec.combine op.onScalars (.ofScalar s) (.ofScalar t) =
      op.onScalars s t >>= fun z => .ok (.ofScalar z) := rfl

/-- All four cases of operands are the same operation along two vectors. -/
theorem apply_eq (hl : ActsAs l a) (hr : ActsAs r b) :
    apply op l r = ((Vec.combine op.onScalars a b).map (result l r)).mapError .number := by
  have vectors (a b : Vec) : ofVec? (op.onVecs a b) =
      ((Vec.combine op.onScalars a b).map vector).mapError .number := by
    rw [Operation.onVecs_eq]
    cases Vec.combine op.onScalars a b <;> rfl
  cases hl with
  | vector a =>
    cases hr with
    | vector b => exact vectors a b
    | scalar t => exact vectors a (.ofScalar t)
  | scalar s =>
    cases hr with
    | vector b => exact vectors (.ofScalar s) b
    | scalar t =>
      rw [combine_ofScalar, apply]
      cases op.onScalars s t <;> rfl

theorem apply_eq_ok (hl : ActsAs l a) (hr : ActsAs r b) {q : Quantity} :
    apply op l r = .ok q ↔ ∃ v, Vec.combine op.onScalars a b = .ok v ∧ result l r v = q := by
  rw [apply_eq hl hr]
  cases Vec.combine op.onScalars a b <;> simp [Except.map, Except.mapError]

theorem apply_eq_error (hl : ActsAs l a) (hr : ActsAs r b) {e : NumberError} :
    apply op l r = .error (.number e) ↔ Vec.combine op.onScalars a b = .error e := by
  rw [apply_eq hl hr]
  cases Vec.combine op.onScalars a b <;> simp [Except.map, Except.mapError]

/-- Two scalars have one component as their result. -/
theorem components_result (hl : ActsAs l a) (hr : ActsAs r b) {v : Vec}
    (h : Vec.combine op.onScalars a b = .ok v) : (result l r v).components = v.components := by
  cases hl with
  | vector a => rfl
  | scalar s =>
    cases hr with
    | vector b => rfl
    | scalar t =>
      rw [combine_ofScalar] at h
      obtain ⟨z, -, ⟨⟩⟩ := bind_eq_ok.mp h
      rfl

theorem apply_comm (hop : op = .add ∨ op = .multiply) (hl : ActsAs l a) (hr : ActsAs r b)
    {q : Quantity} (h : apply op l r = .ok q) : apply op r l = .ok q := by
  obtain ⟨v, hv, rfl⟩ := (apply_eq_ok hl hr).mp h
  have hv' := Vec.combine_comm (Operation.onScalars_comm hop) hv
  exact (apply_eq_ok hr hl).mpr ⟨v, hv', result_comm r l v⟩

/-- **Broadcasting.** An operator has a scalar as its result exactly for two scalars, and otherwise
a vector. It refuses two lengths that differ unless one of them is `1`; a division refuses a zero
in the divisor; and else the result has the greater length, and at each place the value of what the
operands have there. Sums and products do not change when the operands are exchanged. -/
theorem apply_broadcast (op : Operation) (l r : Quantity) (hl : l.kind ≠ .integer)
    (hr : r.kind ≠ .integer) :
    let m := l.components.length
    let n := r.components.length
    (∀ q, apply op l r = .ok q →
      q.kind = if l.kind = .scalar ∧ r.kind = .scalar then .scalar else .vector) ∧
    (apply op l r = .error (.number (.lengthMismatch m n)) ↔ m ≠ n ∧ m ≠ 1 ∧ n ≠ 1) ∧
    (m = n ∨ m = 1 ∨ n = 1 →
      (apply op l r = .error (.number .divisionByZero) ↔ op = .divide ∧ .zero ∈ r.components) ∧
      (¬(op = .divide ∧ .zero ∈ r.components) → ∃ q, apply op l r = .ok q ∧
        q.components.length = max m n ∧ ∀ i < max m n, ∃ x y z,
          supplied l.components i = some x ∧ supplied r.components i = some y ∧
            q.components[i]? = some z ∧ op.onScalars x y = .ok z)) ∧
    (op = .add ∨ op = .multiply → ∀ q, apply op l r = .ok q ↔ apply op r l = .ok q) := by
  obtain ⟨a, ha, hca⟩ := exists_actsAs hl
  obtain ⟨b, hb, hcb⟩ := exists_actsAs hr
  have hcases := op.combine_cases a b
  simp only [← hca, ← hcb, Vec.length_components, apply_eq_error ha hb]
  refine ⟨fun q hq => ?_, ?_, fun hfit => ?_,
    fun hop q => ⟨apply_comm hop ha hb, apply_comm hop hb ha⟩⟩
  · obtain ⟨v, -, rfl⟩ := (apply_eq_ok ha hb).mp hq
    exact kind_result l r v
  · rcases hcases with ⟨hmis, he⟩ | ⟨hfit, ⟨-, he⟩ | ⟨-, v, hv⟩⟩
    · exact ⟨fun _ => hmis, fun _ => he⟩
    · rw [he]
      exact ⟨nofun, fun hmis => by omega⟩
    · rw [hv]
      exact ⟨nofun, fun hmis => by omega⟩
  · rcases hcases with ⟨hmis, -⟩ | ⟨-, ⟨hz, he⟩ | ⟨hz, v, hv⟩⟩
    · omega
    · exact ⟨⟨fun _ => hz, fun _ => he⟩, fun hn => absurd hz hn⟩
    · obtain ⟨hlen, hat⟩ := Vec.combine_supplied hv
      refine ⟨⟨fun he => ?_, fun h => absurd h hz⟩, fun _ => ⟨result l r v, ?_, ?_⟩⟩
      · rw [hv] at he
        cases he
      · exact (apply_eq_ok ha hb).mpr ⟨v, hv, rfl⟩
      · rw [components_result ha hb hv, ← hlen]
        exact ⟨rfl, hat⟩

/-- A scalar on the left of a pair, and in front of a pair with a zero; three components and two. -/
theorem apply_broadcast_scalar_left :
    let one : Quantity := .scalar .one
    let pair : Quantity := .vector ⟨.ofWhole 2, [.zero]⟩
    let triple : Quantity := .vector ⟨.one, [.one, .one]⟩
    (one.kind ≠ .integer ∧ pair.kind ≠ .integer ∧ triple.kind ≠ .integer) ∧
    (∃ q, apply .subtract one pair = .ok q ∧ q.components.length = 2 ∧
      ∀ i < 2, ∃ x y z, supplied one.components i = some x ∧ supplied pair.components i = some y ∧
        q.components[i]? = some z ∧ Operation.subtract.onScalars x y = .ok z) ∧
    apply .divide one pair = .error (.number .divisionByZero) ∧
    apply .divide triple pair = .error (.number (.lengthMismatch 3 2)) := by
  intro one pair triple
  have h1 : one.kind ≠ .integer := by decide
  have h2 : pair.kind ≠ .integer := by decide
  have h3 : triple.kind ≠ .integer := by decide
  obtain ⟨-, -, sub, -⟩ := apply_broadcast .subtract one pair h1 h2
  obtain ⟨-, -, div, -⟩ := apply_broadcast .divide one pair h1 h2
  obtain ⟨-, mismatch, -, -⟩ := apply_broadcast .divide triple pair h3 h2
  exact ⟨⟨h1, h2, h3⟩, (sub (by decide)).2 (by decide), (div (by decide)).1.mpr (by decide),
    mismatch.mpr (by decide)⟩

end Quantity

end BinaryPoint
