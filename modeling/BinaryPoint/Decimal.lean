import BinaryPoint.Error

/-!
# Decimals

Decimal numbers with five digits before the point and eleven behind it. The canonical
text of a decimal writes all of them: `[-]IIIII.FFFFFFFFFFF`.

* `Decimal.ofText`: reads free decimal text `[-]digits[.digits]`. Digits behind the
  eleventh place round, a half away from zero.
* `Decimal.ofCanonical`: reads canonical text only.
* `Decimal.render`: the canonical text.

A decimal remembers a minus sign before zero, since its text does.
-/
namespace BinaryPoint

/-- One, in units of `10^-11`. -/
def Decimal.scale : Nat := 100000000000

/-- A decimal number of at most five whole digits and eleven places: a sign, and the magnitude in
units of `10^-11`. -/
@[ext] structure Decimal where
  negative : Bool
  units : Nat
  units_lt : units < 10000000000000000
  deriving DecidableEq, Repr

namespace Decimal

/-- The canonical text: five whole digits, a point and eleven places. -/
def render (d : Decimal) : Text :=
  (if d.negative then ['-'] else []) ++ Text.padded 10 5 (d.units / scale) ++ ['.']
    ++ Text.padded 10 11 (d.units % scale)

/-- Gives `n` the sign asked for. -/
def signed (negative : Bool) (n : Nat) : Int := if negative then -n else n

/-- The number in units of `10^-11`. -/
def toInt (d : Decimal) : Int := signed d.negative d.units

/-- The greatest whole part that a refusal can name. -/
def reportable : Nat := 9223372036854775807

/-- A run of places in units of `10^-11`: the first eleven, with zeros for those that are
missing, and one more unit if the twelfth is at least five. -/
def placesUnits (places : Text) : Nat :=
  let kept := (places.take 11).rightpad 11 '0'
  let next := (places.drop 11).headD '0'
  Text.decimalValue kept + (if 5 ≤ Text.digitValue next then 1 else 0)

/-- The decimal with the given runs of digits before and behind its point. -/
def ofDigits (negative : Bool) (whole places : Text) : Except NumberError Decimal :=
  let value := Text.decimalValue whole
  if 99999 < value then .error (.wholeRange (signed negative (min value reportable)))
  else
    let units := value * scale + placesUnits places
    if h : units < 10000000000000000 then .ok ⟨negative, units, h⟩
    else .error (.wholeRange (signed negative (units / scale)))

/-- Reads `[-]digits[.digits]`; mirrors `normalize_decimal`. -/
def ofText (text : Text) : Except NumberError Decimal :=
  let (negative, body) := Text.dropMark '-' text
  match Text.cutAt '.' body with
  | some (whole, places) =>
    if !Text.isDigits places then .error (.malformed text .fractionDigits)
    else if !Text.isDigits whole then .error (.malformed text .wholeDigits)
    else ofDigits negative whole places
  | none =>
    if !Text.isDigits body then .error (.malformed text .wholeDigits)
    else ofDigits negative body []

/-- Reads `[-]IIIII.FFFFFFFFFFF`; mirrors `split_canonical`. -/
def ofCanonical (text : Text) : Except NumberError Decimal :=
  let (negative, body) := Text.dropMark '-' text
  match Text.splitWhen (· == '.') body with
  | [whole, places] =>
    if whole.length ≠ 5 || !whole.all Text.isDigit then .error (.malformed text .wholeWidth)
    else if places.length ≠ 11 || !places.all Text.isDigit then
      .error (.malformed text .fractionWidth)
    else ofDigits negative whole places
  | _ => .error (.malformed text .decimalPoint)

end Decimal

end BinaryPoint
