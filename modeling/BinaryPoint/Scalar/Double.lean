import BinaryPoint.Scalar.Basic

/-!
# Scalars and doubles

Conversions between scalars and double-precision numbers, given by their 64 bits: a sign
bit, eleven bits of exponent and fifty-two bits of fraction. `Double` is what such a
pattern denotes, so both directions are exact integer arithmetic.

* `Scalar.ofDouble`: the nearest scalar, ties away from zero; no number counts as zero.
* `Scalar.toDoubleBits`: the double with the value of the scalar, which always exists.
-/
namespace BinaryPoint

/-- What a double-precision pattern denotes: no number, an infinity, or the number
`mantissa * 2^exponent` or its negative. -/
inductive Double where
  | undefined
  | infinite (negative : Bool)
  | finite (negative : Bool) (mantissa : Nat) (exponent : Int)
  deriving DecidableEq, Repr

namespace Double

/-- The implicit bit in front of the fraction, and the weight of the exponent: `2^52`. -/
def implicitBit : Nat := 4503599627370496

/-- The number of exponents, and the weight of the sign above them: `2^11`. -/
def exponentCount : Nat := 2048

/-- The double that the 64 bits denote. -/
def ofBits (bits : UInt64) : Double :=
  let fraction := bits.toNat % implicitBit
  let exponent : Nat := bits.toNat / implicitBit % exponentCount
  let negative := decide (exponentCount ≤ bits.toNat / implicitBit)
  if exponent = exponentCount - 1 then
    if fraction = 0 then .infinite negative else .undefined
  else if exponent = 0 then .finite negative fraction (-1074)
  else .finite negative (implicitBit + fraction) ((exponent : Int) - 1075)

/-- The product with `2^16`. The mantissa stays, so nothing is rounded; but a product of at
least `2^1024`, which is above all doubles, is infinite. -/
def timesUnit : Double → Double
  | .undefined => .undefined
  | .infinite negative => .infinite negative
  | .finite negative mantissa exponent =>
    if mantissa ≠ 0 ∧ 1024 ≤ (mantissa.log2 : Int) + (exponent + 16) then .infinite negative
    else .finite negative mantissa (exponent + 16)

end Double

namespace Scalar

/-- The integer nearest to `mantissa * 2^exponent`, the greater one of two. -/
def nearest (mantissa : Nat) (exponent : Int) : Nat :=
  if 0 ≤ exponent then mantissa <<< exponent.toNat
  else
    let places := (-exponent).toNat
    (2 * mantissa + (1 <<< places)) >>> (places + 1)

/-- The scalar nearest to a double; ties go away from zero. Mirrors `from_f64`. -/
def ofDouble (d : Double) : Scalar :=
  match d.timesUnit with
  | .undefined => zero
  | .infinite negative => if negative then min else max
  | .finite negative mantissa exponent =>
    let magnitude : Int := nearest mantissa exponent
    saturate (if negative then -magnitude else magnitude)

/-- The bits of the double that equals the scalar. The leading bit of the magnitude is
the implicit one of the pattern; the bits below it start the fraction. Mirrors `to_f64`. -/
def toDoubleBits (s : Scalar) : UInt64 :=
  if s.raw = 0 then 0
  else
    let sign := if s.raw < 0 then Double.exponentCount else 0
    let lead := s.raw.natAbs.log2
    let fraction := s.raw.natAbs <<< (52 - lead) - Double.implicitBit
    UInt64.ofNat ((sign + lead + 1007) * Double.implicitBit + fraction)

end Scalar

end BinaryPoint
