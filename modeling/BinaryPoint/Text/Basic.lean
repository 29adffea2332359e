/-!
# Texts

A text is a list of characters. Readers take texts apart from the front, so the
whole library works on lists; `String` appears only where a program meets its
input and output.

* `Text.isBlank`: the characters that count as white space.
* `Text.trim`, `Text.lower`, `Text.byteLength`: the measures and normal forms of
  texts that the rules of the calculator refer to.
* `Text.splitWhen`, `Text.cutAt`: pieces between delimiters.
* `Text.decimalValue`, `Text.hexValue`: the number that a run of digits denotes. Runs of hex
  digits may mix cases when they are read, and are written with capitals.
* `Text.padded`, `Text.ofNat`, `Text.ofInt`: numbers in a fixed count of digits, and without
  leading zeros.
-/
namespace BinaryPoint

/-- A piece of text, as its characters in order. -/
abbrev Text := List Char

namespace Text

/-! ## Blanks -/

/-- The code points of white space, as closed ranges in increasing order. -/
def blankRanges : List (Nat × Nat) :=
  [(0x09, 0x0D), (0x20, 0x20), (0x85, 0x85), (0xA0, 0xA0), (0x1680, 0x1680),
   (0x2000, 0x200A), (0x2028, 0x2029), (0x202F, 0x202F), (0x205F, 0x205F),
   (0x3000, 0x3000)]

/-- White space, in ASCII and beyond. -/
def isBlank (c : Char) : Bool :=
  blankRanges.any fun range => range.1 ≤ c.toNat && c.toNat ≤ range.2

/-- The text without blanks at either end. -/
def trim (text : Text) : Text :=
  ((text.dropWhile isBlank).reverse.dropWhile isBlank).reverse

/-! ## Case and size -/

/-- The text with ASCII capitals made small; other characters stay. -/
def lower (text : Text) : Text := text.map Char.toLower

/-- The two texts agree but for the case of ASCII letters. -/
def sameLetters (s t : Text) : Bool := lower s == lower t

/-- The number of bytes of the text in UTF-8. -/
def byteLength (text : Text) : Nat := text.foldr (fun c size => c.utf8Size + size) 0

/-! ## Pieces -/

/-- The pieces between the characters that satisfy `delimiter`, empty ones included. -/
def splitWhen (delimiter : Char → Bool) (text : Text) : List Text :=
  go [] [] text
where
  /-- Collects the current piece in `piece` and the finished ones in `done`, both reversed. -/
  go (piece : Text) (done : List Text) : Text → List Text
    | [] => (piece.reverse :: done).reverse
    | c :: rest =>
      if delimiter c then go [] (piece.reverse :: done) rest else go (c :: piece) done rest

/-- The text before and after the first `mark`, if it occurs. -/
def cutAt (mark : Char) (text : Text) : Option (Text × Text) :=
  match text.dropWhile (· != mark) with
  | [] => none
  | _ :: rest => some (text.takeWhile (· != mark), rest)

theorem length_of_cutAt {mark : Char} {text before after : Text}
    (h : cutAt mark text = some (before, after)) : after.length < text.length := by
  unfold cutAt at h
  split at h
  · contradiction
  · next rest hrest =>
    obtain ⟨rfl, rfl⟩ := Prod.mk.inj (Option.some.inj h)
    have := (List.dropWhile_sublist (l := text) (· != mark)).length_le
    rw [hrest, List.length_cons] at this
    omega

/-- The text without a leading `mark`, and whether there was one. -/
def dropMark (mark : Char) : Text → Bool × Text
  | [] => (false, [])
  | c :: rest => if c = mark then (true, rest) else (false, c :: rest)

/-- The texts one after the other, with `separator` between neighbours. -/
def join (separator : Text) (texts : List Text) : Text :=
  (texts.intersperse separator).flatten

/-! ## Digits -/

def isDigit (c : Char) : Bool := '0' ≤ c && c ≤ '9'

/-- An ASCII hex digit of either case. -/
def isHexDigit (c : Char) : Bool :=
  isDigit c || ('a' ≤ c && c ≤ 'f') || ('A' ≤ c && c ≤ 'F')

/-- A run of at least one decimal digit and nothing else. -/
def isDigits (text : Text) : Bool := !text.isEmpty && text.all isDigit

/-- A run of at least one hex digit and nothing else. -/
def isHexDigits (text : Text) : Bool := !text.isEmpty && text.all isHexDigit

/-- The value of a decimal or hex digit, without meaning for other characters. -/
def digitValue (c : Char) : Nat :=
  if c ≤ '9' then c.toNat - 0x30
  else if c ≤ 'F' then c.toNat - 0x41 + 10
  else c.toNat - 0x61 + 10

/-- The number written by a run of digits in the given base. -/
def valueIn (base : Nat) (digits : Text) : Nat :=
  digits.foldl (fun n c => n * base + digitValue c) 0

def decimalValue (digits : Text) : Nat := valueIn 10 digits

def hexValue (digits : Text) : Nat := valueIn 16 digits

/-- The digit of value `d`, a capital letter from ten on. -/
def digit (d : Nat) : Char := (Nat.digitChar d).toUpper

/-- The last `width` digits of `n` in the given base, with leading zeros. -/
def padded (base : Nat) : (width : Nat) → (n : Nat) → Text
  | 0, _ => []
  | width + 1, n => padded base width (n / base) ++ [digit (n % base)]

/-- The decimal digits of `n`, without leading zeros. -/
def ofNat (n : Nat) : Text := Nat.toDigits 10 n

/-- The decimal digits of `n`, after a minus sign if `n` is negative. -/
def ofInt (n : Int) : Text :=
  if n < 0 then '-' :: ofNat n.natAbs else ofNat n.natAbs

end Text

end BinaryPoint
