import BinaryPoint.Scalar.Basic
import BinaryPoint.Decimal

/-!
# Scalars as text

A scalar is written as the eight hex digits of its word, or as a decimal; a literal is hex
digits after a `#`, or decimal text.

**Hex words.** Text is written with capitals and read in either case. Widths are counted in
bytes, so a text of another width is refused before its characters are looked at.

**Decimals.** A word has a sign bit, a field of fifteen bits for the whole part and one of
sixteen bits for the fraction. One step of the fraction weighs `Scalar.step` units of
`10^-11`, which is `10^11 / 2^16` without its fraction, so the last units below the next
whole number belong to no word. A negative decimal is moved up by `2^15` before it is cut
into the fields and its word gets the sign bit, so its whole part counts from below.

* `Scalar.ofHexWord`, `Scalar.ofHex`, `Scalar.hex`: hex words.
* `Scalar.ofDecimal`: the word of a decimal, or the field that it does not fit.
* `Scalar.toDecimal`: the decimal that a word is written as.
* `Scalar.ofLiteral`, `Scalar.literal`: literals. What is written reads back as the same word.
-/
namespace BinaryPoint.Scalar

/-! ## Hex words -/

/-- The eight capital hex digits of the word. -/
def hex (s : Scalar) : Text := Text.padded 16 8 s.bits

/-- Reads a word of exactly eight hex digits. -/
def ofHexWord (text : Text) : Except NumberError Scalar :=
  if Text.byteLength text ≠ 8 then .error (.malformed text .wordWidth)
  else if !text.all Text.isHexDigit then .error (.malformed text .hexDigit)
  else .ok (ofBits (Text.hexValue text))

/-- Reads one to eight hex digits, after an optional `#`. Missing digits are leading zeros. -/
def ofHex (text : Text) : Except NumberError Scalar :=
  let digits := (Text.dropMark '#' text).2
  if digits.isEmpty || 8 < Text.byteLength digits then .error (.malformed text .hexWidth)
  else if !digits.all Text.isHexDigit then .error (.malformed text .hexDigit)
  else .ok (ofBits (Text.hexValue digits))

/-! ## Decimals -/

/-- The weight of the last fraction bit in units of `10^-11`. -/
def step : Nat := 1525878

/-- The weight of the sign bit, `2^15`, in units of `10^-11`. -/
def signWeight : Nat := 32768 * Decimal.scale

/-- The word with the given sign bit, whole field and fraction field. -/
def ofFields (negative : Bool) (whole fraction : Nat) : Scalar :=
  ofBits ((if negative then 2147483648 else 0) + whole * unit + fraction)

/-- The scalar whose fields hold the decimal. Minus zero is zero. Mirrors `compose`. -/
def ofDecimal (d : Decimal) : Except NumberError Scalar :=
  let negative := d.negative && d.units ≠ 0
  if negative && signWeight < d.units then .error (.wholeRange (-(d.units / Decimal.scale : Nat)))
  else
    let scaled := if negative then signWeight - d.units else d.units
    let whole := scaled / Decimal.scale
    let fraction := scaled % Decimal.scale / step
    if 32767 < whole then .error (.wholeRange whole)
    else if 65535 < fraction then .error (.fractionRange fraction)
    else .ok (ofFields negative whole fraction)

def wholeField (s : Scalar) : Nat := s.bits / unit % 32768

def fractionField (s : Scalar) : Nat := s.bits % unit

/-- The units of `10^-11` that the word stands for. -/
def units (s : Scalar) : Int :=
  (s.wholeField * Decimal.scale + s.fractionField * step : Nat)
    - (if s.bits < 2147483648 then 0 else signWeight : Nat)

theorem natAbs_units_lt (s : Scalar) : s.units.natAbs < 10000000000000000 := by
  have whole : s.wholeField < 32768 := Nat.mod_lt _ (by decide)
  have fraction : s.fractionField < 65536 := Nat.mod_lt _ (by decide)
  unfold units signWeight step Decimal.scale
  split <;> omega

/-- The decimal that the scalar is written as; mirrors `bits_to_decimal`. -/
def toDecimal (s : Scalar) : Decimal := ⟨s.units < 0, s.units.natAbs, natAbs_units_lt s⟩

def ofDecimalText (text : Text) : Except NumberError Scalar :=
  Decimal.ofText text >>= ofDecimal

def ofCanonicalText (text : Text) : Except NumberError Scalar :=
  Decimal.ofCanonical text >>= ofDecimal

def decimalText (s : Scalar) : Text := s.toDecimal.render

/-! ## Literals -/

/-- Reads a literal: hex digits after a `#`, decimal text otherwise. -/
def ofLiteral (text : Text) : Except NumberError Scalar :=
  if text.head? = some '#' then ofHex text else ofDecimalText text

def literal (s : Scalar) : Text := '#' :: s.hex

/-- The literal of the scalar and its canonical decimal text. -/
def described (s : Scalar) : Text := s.literal ++ [' ', '('] ++ s.decimalText ++ [')']

end BinaryPoint.Scalar
