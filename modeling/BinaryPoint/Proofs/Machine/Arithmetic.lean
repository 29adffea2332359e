import BinaryPoint.Proofs.Decimal.Integers
import BinaryPoint.Scalar.Basic

/-!
# Arithmetic in machine words

A machine computes with signed words of 64 bits and cuts some of them to words of 32 bits. A
computation is written once, step by step, over any `Arithmetic`: what becomes of the result of
each operation and of each word that is cut.

* `exact`: integers without bounds, nothing is cut off.
* `wrapping`: every result is reduced modulo the number of words.
* `checked`: a result that does not fit its word ends the computation.

They differ outside the range of the words only (`Arithmetic.Keeps`), so it is enough to bound
every result of a computation once, over an arithmetic of which no more is known
(`Agrees.of_keeps`). Reading the low half of a product drops bits on purpose and is the same in
all three; `strict` is `checked` without this exception.
-/
namespace BinaryPoint.Machine

/-- What becomes of the integers that the steps of a computation have as their results. -/
structure Arithmetic (m : Type → Type) where
  /-- The result of an operation on signed words of 64 bits. -/
  long : ℤ → m ℤ
  /-- A word cut to 32 bits and read without a sign. -/
  bits : ℤ → m ℤ
  /-- A word cut to 32 bits and read with a sign. -/
  word : ℤ → m ℤ
  /-- A word cut to 16 bits and read with a sign. -/
  half : ℤ → m ℤ

/-- Integers without bounds. -/
def exact : Arithmetic Id := ⟨pure, pure, pure, fun n => pure (Scalar.discarded n)⟩

/-- Words in two's complement. -/
def wrapping : Arithmetic Id where
  long n := pure (n.bmod 18446744073709551616)
  bits n := pure (n % 4294967296)
  word n := pure (n.bmod 4294967296)
  half n := pure (Scalar.discarded n)

/-- The integer, if it is within the bounds. -/
def within (least greatest n : ℤ) : Option ℤ :=
  if least ≤ n ∧ n ≤ greatest then some n else none

/-- Words, with a failure for every integer that does not fit. -/
def checked : Arithmetic Option where
  long := within (-9223372036854775808) 9223372036854775807
  bits := within 0 4294967295
  word := within (-2147483648) 2147483647
  half n := some (Scalar.discarded n)

/-- Words, with a failure for every integer that does not fit, low halves included. -/
def strict : Arithmetic Option := { checked with half := within (-32768) 32767 }

/-- Integers that fit their words are kept. -/
structure Arithmetic.Keeps {m : Type → Type} [Monad m] (A : Arithmetic m) : Prop where
  long : ∀ {n : ℤ}, -9223372036854775808 ≤ n → n ≤ 9223372036854775807 → A.long n = pure n
  bits : ∀ {n : ℤ}, 0 ≤ n → n ≤ 4294967295 → A.bits n = pure n
  word : ∀ {n : ℤ}, -2147483648 ≤ n → n ≤ 2147483647 → A.word n = pure n
  half : ∀ n : ℤ, A.half n = pure (Scalar.discarded n)

/-- The computation goes on with a result that fits. -/
theorem Arithmetic.Keeps.long_bind {m : Type → Type} [Monad m] [LawfulMonad m] {A : Arithmetic m}
    (h : A.Keeps) {α : Type} {n : ℤ} {rest : ℤ → m α} (hn : n.natAbs ≤ 9223372036854775807) :
    A.long n >>= rest = rest n := by
  rw [h.long (by omega) (by omega), pure_bind]

theorem exact_keeps : exact.Keeps :=
  ⟨fun _ _ => rfl, fun _ _ => rfl, fun _ _ => rfl, fun _ => rfl⟩

theorem wrapping_keeps : wrapping.Keeps where
  long h h' := congrArg pure (Int.bmod_eq_of_le (by omega) (by omega))
  bits h h' := congrArg pure (Int.emod_eq_of_lt h (by omega))
  word h h' := congrArg pure (Int.bmod_eq_of_le (by omega) (by omega))
  half _ := rfl

theorem checked_keeps : checked.Keeps :=
  ⟨fun h h' => if_pos ⟨h, h'⟩, fun h h' => if_pos ⟨h, h'⟩, fun h h' => if_pos ⟨h, h'⟩, fun _ => rfl⟩

/-- The computation has the given result over integers without bounds, it has the same result in
words that wrap, and none of its steps leaves its word. -/
def Agrees {α : Type} (f : {m : Type → Type} → [Monad m] → Arithmetic m → m α) (result : α) :
    Prop :=
  (f exact).run = result ∧ (f wrapping).run = result ∧ f checked = some result

theorem Agrees.of_keeps {α : Type} {f : {m : Type → Type} → [Monad m] → Arithmetic m → m α}
    {result : α} (h : ∀ {m : Type → Type} [Monad m] [LawfulMonad m] {A : Arithmetic m}, A.Keeps →
      f A = pure result) : Agrees f result :=
  ⟨h exact_keeps, h wrapping_keeps, h checked_keeps⟩

/-! ## Numbers and their digits -/

variable {m : Type → Type} [Monad m] {A : Arithmetic m}

/-- The number, or its opposite. -/
def signed (A : Arithmetic m) (negative : Bool) (n : ℤ) : m ℤ :=
  if negative then A.long (-n) else pure n

/-- The number that a run of digits writes, digit by digit. -/
def digitsValue (A : Arithmetic m) (digits : Text) : m ℤ :=
  digits.foldlM (fun n c => do A.long ((← A.long (n * 10)) + Text.digitValue c)) 0

/-- The number in decimal, filled up with zeros behind its sign. -/
def zeroPadded (width : ℕ) (n : ℤ) : Text :=
  if n < 0 then '-' :: (Text.ofNat n.natAbs).leftpad (width - 1) '0'
  else (Text.ofNat n.natAbs).leftpad width '0'

theorem signed_eq (h : A.Keeps) (negative : Bool) {n : ℕ} (hn : n ≤ 9223372036854775807) :
    signed A negative n = pure (Decimal.signed negative n) := by
  unfold signed Decimal.signed
  split
  · exact h.long (by omega) (by omega)
  · rfl

/-- Eighteen digits fit a word, and so does every number on the way to them. -/
theorem digitsValue_eq [LawfulMonad m] (h : A.Keeps) {digits : Text}
    (hd : ∀ c ∈ digits, Text.isDigit c = true) (hl : digits.length ≤ 18) :
    digitsValue A digits = pure (Text.decimalValue digits : ℤ) := by
  induction digits using List.reverseRecOn with
  | nil => rfl
  | append_singleton digits c ih =>
    have hv : Text.decimalValue (digits ++ [c]) =
        Text.decimalValue digits * 10 + Text.digitValue c := Text.valueIn_concat 10 digits c
    have hlt : Text.decimalValue (digits ++ [c]) < 1000000000000000000 :=
      (Text.decimalValue_lt hd).trans_le (Nat.pow_le_pow_right (by decide) hl)
    rw [List.length_append] at hl
    have hi := ih (fun d hm => hd d (List.mem_append_left _ hm)) (by omega)
    rw [digitsValue] at hi
    rw [digitsValue, List.foldlM_append, hi, pure_bind, List.foldlM_cons, h.long_bind (by omega),
      h.long_bind (by omega), hv]
    push_cast
    rfl

theorem zeroPadded_natCast {width n : ℕ} (hw : 0 < width) (hn : n < 10 ^ width) :
    zeroPadded width n = Text.padded 10 width n := by
  have hd := (Text.isDigits_iff.mp (Text.isDigits_ofNat n)).2
  have hl : (Text.ofNat n).length ≤ width := (Nat.length_toDigits_le_iff (by decide) hw).mpr hn
  have hp := Text.padded_decimalValue hl hd
  rw [Text.decimalValue_ofNat] at hp
  rw [zeroPadded, if_neg (by omega), Int.natAbs_natCast, hp]

end BinaryPoint.Machine
