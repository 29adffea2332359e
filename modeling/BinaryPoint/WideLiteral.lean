import BinaryPoint.Scalar.Literal

/-!
# Wide literals

An integer that needs more than one word is spread over several: its two's complement
bytes, sign extended to whole words, most significant word first. Hex digits after a `#`
are two's complement of their own width, so a leading digit from eight on makes them
negative.

* `TwosComplement.toInt`: the integer of a list of bytes, most significant first, with the
  sign in the top bit of the first byte; no bytes are zero.
* `TwosComplement.ofInt`: the fewest bytes for an integer.
* `TwosComplement.extend`: the same integer in a multiple of four bytes.
* `WideLiteral.expand`: the scalars of a literal. What fits one word is an ordinary
  scalar literal, so `5` is five and not five steps; hex digits beyond eight that only
  repeat the sign give one word all the same.
* `WideLiteral.words`, `WideLiteral.integer`: the words of an integer, and the integer of
  a list of words.
-/
namespace BinaryPoint

namespace TwosComplement

/-- The number that the bytes write without a sign. -/
def unsigned (bytes : List UInt8) : Nat := bytes.foldl (fun n byte => n * 256 + byte.toNat) 0

def isNegative : List UInt8 → Bool
  | [] => false
  | byte :: _ => 128 ≤ byte.toNat

def toInt (bytes : List UInt8) : Int :=
  if isNegative bytes then (unsigned bytes : Int) - (1 <<< (8 * bytes.length) : Nat)
  else unsigned bytes

def lowByte (n : Int) : UInt8 := UInt8.ofNat (n % 256).toNat

/-- The fewest bytes that write `n`. -/
def ofInt (n : Int) : List UInt8 := go n []
where
  /-- Puts the bytes of `n` before those already found. -/
  go (n : Int) (found : List UInt8) : List UInt8 :=
    if -128 ≤ n ∧ n < 128 then lowByte n :: found else go (n / 256) (lowByte n :: found)
  termination_by n.natAbs
  decreasing_by omega

/-- The bytes after as many copies of the sign as make their count a multiple of four. -/
def extend (bytes : List UInt8) : List UInt8 :=
  List.replicate ((4 - bytes.length % 4) % 4) (if isNegative bytes then 0xFF else 0x00) ++ bytes

end TwosComplement

/-- The four bytes of the word, most significant first. -/
def Scalar.bytes (s : Scalar) : List UInt8 :=
  [UInt8.ofNat (s.bits / 16777216), UInt8.ofNat (s.bits / 65536), UInt8.ofNat (s.bits / 256),
   UInt8.ofNat s.bits]

namespace WideLiteral

/-- The words of whole groups of four bytes. -/
def cut : List UInt8 → List Scalar
  | a :: b :: c :: d :: rest => Scalar.ofBits (TwosComplement.unsigned [a, b, c, d]) :: cut rest
  | _ => []

/-- The words of an integer, as few as hold it, but at least one; mirrors `unpack_words`. -/
def words (n : Int) : List Scalar := cut (TwosComplement.extend (TwosComplement.ofInt n))

/-- The integer that a list of words writes; no words write zero. Mirrors `pack_words`. -/
def integer (ws : List Scalar) : Int := TwosComplement.toInt (ws.flatMap Scalar.bytes)

/-- The integer of a run of hex digits, as two's complement of its own width. -/
def hexInteger (digits : Text) : Int :=
  let value := Text.hexValue digits
  if 8 ≤ Text.digitValue (digits.headD '0') then (value : Int) - (1 <<< (4 * digits.length) : Nat)
  else value

/-- Reads hex digits after a `#`, or decimal digits after an optional minus sign. -/
def readInteger (literal : Text) : Except NumberError Int :=
  match Text.dropMark '#' literal with
  | (true, digits) =>
    if Text.isHexDigits digits then .ok (hexInteger digits)
    else .error (.malformed literal .wideHexDigits)
  | (false, _) =>
    let (negative, digits) := Text.dropMark '-' literal
    if Text.isDigits digits then .ok (Decimal.signed negative (Text.decimalValue digits))
    else .error (.malformed literal .integerDigits)

/-- The literal is marked as hex and has more digits than one word. -/
def isLongHex (literal : Text) : Bool := literal.head? = some '#' && 9 < literal.length

/-- The scalars that a literal stands for; mirrors `parse_many`. -/
def expand (literal : Text) : Except NumberError (List Scalar) :=
  if literal.contains '.' then (Scalar.ofLiteral literal).map ([·])
  else do
    let n ← readInteger literal
    if 4 < (TwosComplement.ofInt n).length || isLongHex literal then return words n
    else (Scalar.ofLiteral literal).map ([·])

end WideLiteral

end BinaryPoint
