import BinaryPoint.Error

/-!
# Scalars

A scalar is a signed 32-bit word. The word `raw` stands for the number `raw / 2^16`:
sixteen bits before the binary point and sixteen behind it. Equality and order are
those of the words.

Every operation computes with exact integers and saturates: a result beyond either end
of the range becomes that end. Products keep the floor of the exact product, corrected
against its sign by what was cut off (`Scalar.shifted`); quotients drop their fraction.
Only division can fail.

* `Scalar.bits`, `Scalar.ofBits`: the word read without a sign.
* `Scalar.wrap`: the word of the low 32 bits of an integer.
* `Scalar.saturate`: the word nearest to an integer.
-/
namespace BinaryPoint

/-- The number of words, `2^32`. -/
def wordCount : Nat := 4294967296

/-- One, in steps of the last fraction bit: `2^16`. -/
def unit : Nat := 65536

/-- A fixed-point number with sixteen bits behind the point: a signed word of 32 bits. -/
@[ext] structure Scalar where
  raw : Int
  neg_le_raw : -2147483648 ≤ raw := by omega
  raw_le : raw ≤ 2147483647 := by omega
  deriving DecidableEq, Repr

namespace Scalar

/-- The least scalar, `-32768`. -/
def min : Scalar := { raw := -2147483648 }

/-- The greatest scalar, one step below `32768`. -/
def max : Scalar := { raw := 2147483647 }

def zero : Scalar := { raw := 0 }

def one : Scalar := { raw := 65536 }

instance : Inhabited Scalar := ⟨zero⟩

instance : Ord Scalar := ⟨fun a b => compare a.raw b.raw⟩

/-- The scalar whose word is congruent to `n` modulo `2^32`. -/
def wrap (n : Int) : Scalar where
  raw := (n + 2147483648) % 4294967296 - 2147483648

/-- The scalar whose word is nearest to `n`. -/
def saturate (n : Int) : Scalar where
  raw := if n < -2147483648 then -2147483648 else if 2147483647 < n then 2147483647 else n
  neg_le_raw := by split <;> try split
                   all_goals omega
  raw_le := by split <;> try split
               all_goals omega

/-- The word without a sign, below `2^32`. -/
def bits (s : Scalar) : Nat := (s.raw % wordCount).toNat

/-- The scalar with the given unsigned word; higher bits are dropped. -/
def ofBits (bits : Nat) : Scalar := wrap bits

/-- The whole number `n`, or the end of the range beyond which it lies. -/
def ofWhole (n : Int) : Scalar := saturate (n * unit)

/-! ## Arithmetic -/

instance : Add Scalar where
  add a b := saturate (a.raw + b.raw)

instance : Sub Scalar where
  sub a b := saturate (a.raw - b.raw)

/-- The low sixteen bits of a product, read with a sign. -/
def discarded (product : Int) : Int := (product + 32768) % 65536 - 32768

/-- An exact product brought back to steps of `2^-16`. The floor moves one step against the
sign of the product if the discarded half has that sign; a discarded `-1` does not count.
Mirrors `saturating_mul` before its clamp. -/
def shifted (product : Int) : Int :=
  let floor := product / unit
  if product < 0 ∧ discarded product < -1 then floor + 1
  else if 0 < product ∧ 0 < discarded product then floor - 1
  else floor

instance : Mul Scalar where
  mul a b := saturate (shifted (a.raw * b.raw))

instance : Neg Scalar where
  neg a := zero - a

/-- The quotient, with its fraction dropped; mirrors `checked_div`. -/
def div (a b : Scalar) : Except NumberError Scalar :=
  if b.raw = 0 then .error .divisionByZero
  else .ok (saturate ((a.raw * unit).tdiv b.raw))

/-- The distance from zero; that of the least scalar saturates. -/
def abs (a : Scalar) : Scalar := if a.raw < 0 then -a else a

end Scalar

end BinaryPoint
