import Mathlib.Data.List.Induction
import Mathlib.Tactic.Ring
import BinaryPoint.WideLiteral

/-!
# Bytes in two's complement

Bytes write an integer modulo a power of 256, and of the integers in that class the one that is
balanced around zero. So a list of bytes is known from its length and its integer, and copies of
the sign in front of it change nothing.

* `toInt_eq_bmod`, `toInt_bounds`, `toInt_inj`: the integer of bytes as a balanced remainder.
* `toInt_append`: bytes behind others are digits in base 256.
* `toInt_ofInt`, `length_ofInt_le`: bytes of an integer are read back, and are the fewest.
* `toInt_extend`: copies of the sign keep the integer.
-/
namespace BinaryPoint.TwosComplement

/-! ## Without a sign -/

theorem unsigned_concat (bytes : List UInt8) (byte : UInt8) :
    unsigned (bytes ++ [byte]) = unsigned bytes * 256 + byte.toNat := by
  simp [unsigned]

theorem unsigned_append (a b : List UInt8) :
    unsigned (a ++ b) = unsigned a * 256 ^ b.length + unsigned b := by
  induction b using List.reverseRecOn with
  | nil => simp [unsigned]
  | append_singleton b byte ih =>
    rw [← List.append_assoc, unsigned_concat, unsigned_concat, ih, List.length_append,
      List.length_singleton]
    ring

theorem unsigned_cons (byte : UInt8) (bytes : List UInt8) :
    unsigned (byte :: bytes) = byte.toNat * 256 ^ bytes.length + unsigned bytes := by
  rw [← List.singleton_append, unsigned_append]; simp [unsigned]

theorem unsigned_lt (bytes : List UInt8) : unsigned bytes < 256 ^ bytes.length := by
  induction bytes using List.reverseRecOn with
  | nil => simp [unsigned]
  | append_singleton bytes byte ih =>
    have hb := byte.toNat_lt
    rw [unsigned_concat, List.length_append, List.length_singleton, Nat.pow_succ]
    omega

theorem unsigned_inj : ∀ {a b : List UInt8}, a.length = b.length → unsigned a = unsigned b → a = b
  | [], [], _, _ => rfl
  | x :: a, y :: b, hl, h => by
    rw [List.length_cons, List.length_cons, Nat.add_right_cancel_iff] at hl
    have ha := unsigned_lt a
    have hb := unsigned_lt b
    rw [unsigned_cons, unsigned_cons, hl, Nat.mul_comm, Nat.mul_comm y.toNat] at h
    rw [hl] at ha
    -- both are quotient and remainder of one number
    have hq := congrArg (· / 256 ^ b.length) h
    have hr := congrArg (· % 256 ^ b.length) h
    simp only [Nat.mul_add_div (Nat.pow_pos (by decide : 0 < 256)), Nat.mul_add_mod,
      Nat.div_eq_of_lt ha, Nat.div_eq_of_lt hb, Nat.mod_eq_of_lt ha, Nat.mod_eq_of_lt hb,
      Nat.add_zero] at hq hr
    rw [UInt8.toNat_inj.mp hq, unsigned_inj hl hr]

/-! ## With a sign -/

theorem isNegative_iff (bytes : List UInt8) :
    isNegative bytes = true ↔ 256 ^ bytes.length ≤ 2 * unsigned bytes := by
  cases bytes with
  | nil => simp [isNegative, unsigned]
  | cons byte bytes =>
    have hb := unsigned_lt bytes
    have hpos : 0 < 256 ^ bytes.length := Nat.pow_pos (by decide)
    rw [isNegative, decide_eq_true_eq, unsigned_cons, List.length_cons, Nat.pow_succ]
    generalize 256 ^ bytes.length = m at hb hpos ⊢
    constructor
    · intro h
      have := Nat.mul_le_mul_right m h
      omega
    · intro h
      by_contra hn
      have := Nat.mul_le_mul_right m (show byte.toNat ≤ 127 by omega)
      omega

/-- A number below the modulus, with the modulus taken off its upper half. -/
theorem bmod_of_lt {u m : Nat} (h : u < m) :
    (u : ℤ).bmod m = if m ≤ 2 * u then (u : ℤ) - m else u := by
  rw [Int.bmod_def, Int.emod_eq_of_lt (by omega) (by omega)]
  split <;> split <;> omega

theorem toInt_eq_bmod (bytes : List UInt8) :
    toInt bytes = (unsigned bytes : ℤ).bmod (256 ^ bytes.length) := by
  have hm : (1 <<< (8 * bytes.length) : Nat) = 256 ^ bytes.length := by
    rw [Nat.one_shiftLeft, Nat.pow_mul]
  rw [bmod_of_lt (unsigned_lt bytes), toInt, hm]
  exact if_congr (isNegative_iff bytes) rfl rfl

theorem toInt_bounds (bytes : List UInt8) :
    -(256 ^ bytes.length : ℕ) ≤ 2 * toInt bytes ∧ 2 * toInt bytes < (256 ^ bytes.length : ℕ) := by
  have hpos : 0 < 256 ^ bytes.length := Nat.pow_pos (by decide)
  have hl := Int.le_bmod (x := unsigned bytes) hpos
  have hu := Int.bmod_lt (x := unsigned bytes) hpos
  rw [toInt_eq_bmod]
  omega

theorem toInt_emod (bytes : List UInt8) :
    toInt bytes % (256 ^ bytes.length : ℕ) = unsigned bytes := by
  rw [toInt_eq_bmod, Int.bmod_emod, ← Int.natCast_emod, Nat.mod_eq_of_lt (unsigned_lt bytes)]

theorem toInt_inj {a b : List UInt8} (hl : a.length = b.length) (h : toInt a = toInt b) :
    a = b := by
  refine unsigned_inj hl ?_
  have hu := toInt_emod a
  rw [h, hl, toInt_emod] at hu
  exact_mod_cast hu.symm

theorem toInt_singleton (byte : UInt8) :
    toInt [byte] = if 128 ≤ byte.toNat then (byte.toNat : ℤ) - 256 else byte.toNat := by
  simp [toInt, isNegative, unsigned]

theorem isNegative_concat {bytes : List UInt8} (h : bytes ≠ []) (byte : UInt8) :
    isNegative (bytes ++ [byte]) = isNegative bytes := by
  cases bytes with
  | nil => exact absurd rfl h
  | cons => rfl

theorem toInt_concat {bytes : List UInt8} (h : bytes ≠ []) (byte : UInt8) :
    toInt (bytes ++ [byte]) = toInt bytes * 256 + byte.toNat := by
  unfold toInt
  rw [isNegative_concat h, unsigned_concat, List.length_append, List.length_singleton,
    Nat.mul_add, Nat.shiftLeft_add]
  simp only [Nat.shiftLeft_eq]
  split <;> push_cast <;> ring

/-- Bytes behind others are digits without a sign. -/
theorem toInt_append {a : List UInt8} (h : a ≠ []) (b : List UInt8) :
    toInt (a ++ b) = toInt a * 256 ^ b.length + unsigned b := by
  induction b using List.reverseRecOn with
  | nil => simp [unsigned]
  | append_singleton b byte ih =>
    have hab : a ++ b ≠ [] := List.append_ne_nil_of_left_ne_nil h b
    rw [← List.append_assoc, toInt_concat hab, ih, unsigned_concat, List.length_append,
      List.length_singleton]
    push_cast
    ring

/-! ## The fewest bytes -/

theorem toNat_lowByte (n : ℤ) : ((lowByte n).toNat : ℤ) = n % 256 := by
  rw [lowByte, UInt8.toNat_ofNat']; omega

theorem go_append (n : ℤ) (found : List UInt8) : ofInt.go n found = ofInt.go n [] ++ found := by
  rw [ofInt.go, ofInt.go.eq_1 n []]
  split
  · rfl
  · rw [go_append (n / 256) (lowByte n :: found), go_append (n / 256) [lowByte n],
      List.append_assoc, List.singleton_append]
termination_by n.natAbs
decreasing_by all_goals omega

theorem ofInt_eq (n : ℤ) :
    ofInt n = if -128 ≤ n ∧ n < 128 then [lowByte n] else ofInt (n / 256) ++ [lowByte n] := by
  rw [ofInt, ofInt.go]
  split
  · rfl
  · exact go_append _ _

theorem ofInt_of_small {n : ℤ} (h : -128 ≤ n ∧ n < 128) : ofInt n = [lowByte n] := by
  rw [ofInt_eq, if_pos h]

theorem ofInt_of_large {n : ℤ} (h : ¬(-128 ≤ n ∧ n < 128)) :
    ofInt n = ofInt (n / 256) ++ [lowByte n] := by
  rw [ofInt_eq, if_neg h]

theorem ofInt_ne_nil (n : ℤ) : ofInt n ≠ [] := by
  rw [ofInt_eq]; split <;> simp

/-- Integers of one byte, and then each from its quotient by 256. -/
theorem byte_induction {P : ℤ → Prop} (small : ∀ n, -128 ≤ n ∧ n < 128 → P n)
    (large : ∀ n, ¬(-128 ≤ n ∧ n < 128) → P (n / 256) → P n) (n : ℤ) : P n := by
  by_cases h : -128 ≤ n ∧ n < 128
  · exact small n h
  · exact large n h (byte_induction small large (n / 256))
termination_by n.natAbs
decreasing_by omega

theorem toInt_ofInt (n : ℤ) : toInt (ofInt n) = n := by
  induction n using byte_induction with
  | small n h =>
    have hb := toNat_lowByte n
    rw [ofInt_of_small h, toInt_singleton]
    split <;> omega
  | large n h ih =>
    rw [ofInt_of_large h, toInt_concat (ofInt_ne_nil _), ih, toNat_lowByte]
    omega

/-- One byte more stretches both ends of the range by 256. -/
theorem length_ofInt_le (n : ℤ) : ∀ k : ℕ,
    (ofInt n).length ≤ k + 1 ↔ -(128 * 256 ^ k) ≤ n ∧ n < 128 * 256 ^ k := by
  induction n using byte_induction with
  | small n h =>
    intro k
    have hk : (0 : ℤ) < 256 ^ k := Int.pow_pos (by decide)
    rw [ofInt_of_small h, List.length_singleton]
    exact ⟨fun _ => by omega, fun _ => by omega⟩
  | large n h ih =>
    intro k
    rw [ofInt_of_large h, List.length_append, List.length_singleton, Nat.add_le_add_iff_right]
    cases k with
    | zero =>
      have := List.length_pos_iff.mpr (ofInt_ne_nil (n / 256))
      omega
    | succ k =>
      rw [ih, pow_succ]
      omega

/-! ## Copies of the sign -/

theorem isNegative_sign_cons (bytes : List UInt8) :
    isNegative ((if isNegative bytes then 0xFF else 0x00) :: bytes) = isNegative bytes := by
  cases isNegative bytes <;> rfl

theorem toInt_sign_cons (bytes : List UInt8) :
    toInt ((if isNegative bytes then 0xFF else 0x00) :: bytes) = toInt bytes := by
  rw [toInt, isNegative_sign_cons, toInt, unsigned_cons, List.length_cons, Nat.mul_add,
    Nat.shiftLeft_add]
  simp only [Nat.shiftLeft_eq, Nat.pow_mul]
  cases isNegative bytes with
  | false => simp
  | true =>
    have hs : (0xFF : UInt8).toNat = 255 := rfl
    simp only [if_true, hs]
    push_cast
    ring

theorem isNegative_replicate_sign (bytes : List UInt8) (count : ℕ) :
    isNegative (List.replicate count (if isNegative bytes then 0xFF else 0x00) ++ bytes) =
      isNegative bytes := by
  cases count with
  | zero => rfl
  | succ count => cases isNegative bytes <;> rfl

theorem toInt_replicate_sign (bytes : List UInt8) (count : ℕ) :
    toInt (List.replicate count (if isNegative bytes then 0xFF else 0x00) ++ bytes) =
      toInt bytes := by
  induction count with
  | zero => rfl
  | succ count ih =>
    have hs := toInt_sign_cons
      (List.replicate count (if isNegative bytes then 0xFF else 0x00) ++ bytes)
    rw [isNegative_replicate_sign] at hs
    rw [List.replicate_succ, List.cons_append, hs, ih]

theorem toInt_extend (bytes : List UInt8) : toInt (extend bytes) = toInt bytes :=
  toInt_replicate_sign bytes _

theorem length_extend (bytes : List UInt8) :
    (extend bytes).length = 4 * ((bytes.length + 3) / 4) := by
  rw [extend, List.length_append, List.length_replicate]
  omega

end BinaryPoint.TwosComplement
