import BinaryPoint.Proofs.Expression.Brackets
import BinaryPoint.Proofs.Vec.Reading

/-!
# Integers in brackets

An integer in brackets is a vector whose components pack either the integer itself, if one word
cannot hold it, or its multiple by one, if it fits the whole part of a scalar. Between these
sizes nothing can be read, so the digits are left bare in the prepared text, where no number may
stand.

* `isGroup_denotesInt`: the digits of an integer are one bracket group.
* `evaluate_bracketed_integer`: the value of every integer in brackets and of its `Int`.
-/
namespace BinaryPoint

open Decimal (DenotesInt Numeral)
open Lexeme (Spells)
open Literal (IsGroup)

/-! ## Digits as a bracket group -/

theorem evaluatePrepared_error {text : Text} (h : ∀ lexemes, ¬Spells lexemes text) :
    ∃ e, evaluatePrepared text = .error e := by
  rw [evaluatePrepared]
  cases hl : Lexeme.ofText text with
  | error e => exact ⟨e, rfl⟩
  | ok lexemes => exact absurd (Lexeme.ofText_eq_ok.mp hl) (h lexemes)

theorem isItem_denotesInt {text : Text} {n : ℤ} (h : DenotesInt text n) :
    Literal.isItem text = true := by
  obtain ⟨m, -, rfl, -⟩ := h
  exact Literal.isItem_numeral m

theorem isGroup_denotesInt {text : Text} {n : ℤ} (h : DenotesInt text n) : IsGroup text := by
  refine ⟨h.ne_nil, fun item hi => ?_⟩
  have hs : Literal.items text = [text] := Text.splitWhen_singleton fun c hc => by
    simpa using (Vec.isItemChar_of_mem_denotesInt h hc).2
  rw [hs, List.mem_singleton] at hi
  rw [hi]
  exact isItem_denotesInt h

theorem not_spells_denotesInt {text : Text} {n : ℤ} (h : DenotesInt text n)
    (lexemes : List Lexeme) (rest : Text) : ¬Spells lexemes (text ++ rest) :=
  not_spells_item (isItem_denotesInt h) h.ne_nil lexemes rest

/-! ## Values -/

variable {text : Text} {n : ℤ}

/-- If the digits can be read in brackets, their vector is the value. -/
theorem evaluate_readable (h : DenotesInt text n) {v : Vec}
    (hv : Vec.ofText ('[' :: (text ++ [']'])) = .ok v) :
    evaluate ('[' :: (text ++ [']'])) = .ok (.vector v) ∧
      evaluate ('[' :: (text ++ ']' :: ".Int()".toList)) = .ok (.integer v.toInt) :=
  ⟨evaluate_brackets (isGroup_denotesInt h) (stripped_brackets (isGroup_denotesInt h) rfl) hv,
    evaluate_brackets_int (isGroup_denotesInt h) (stripped_brackets (isGroup_denotesInt h) rfl) hv⟩

/-- If not, they stay bare and nothing else is. -/
theorem evaluate_unreadable (h : DenotesInt text n) {e : NumberError}
    (he : Vec.ofText ('[' :: (text ++ [']'])) = .error e) :
    (∃ e, evaluate ('[' :: (text ++ [']'])) = .error e) ∧
      ∃ e, evaluate ('[' :: (text ++ ']' :: ".Int()".toList)) = .error e := by
  constructor
  · have hb := not_spells_denotesInt h
    rw [evaluate, prepare_brackets (isGroup_denotesInt h)
      (stripped_brackets (isGroup_denotesInt h) rfl), Prepared.group_of_error he]
    exact evaluatePrepared_error fun lexemes => by simpa using hb lexemes []
  · rw [evaluate, prepare_brackets_int (isGroup_denotesInt h)
      (stripped_brackets (isGroup_denotesInt h) rfl), Prepared.group_of_error he]
    exact evaluatePrepared_error fun lexemes => not_spells_denotesInt h lexemes _

/-- **Integers in brackets.** What one word cannot hold is packed as it is; what fits the whole
part of a scalar is packed as that scalar; and what lies between has no value. -/
theorem evaluate_bracketed_integer (h : DenotesInt text n) :
    (n < -2 ^ 31 ∨ 2 ^ 31 ≤ n →
      (∃ v, evaluate ('[' :: (text ++ [']'])) = .ok (.vector v) ∧ v.toInt = n) ∧
        evaluate ('[' :: (text ++ ']' :: ".Int()".toList)) = .ok (.integer n)) ∧
    (-32768 ≤ n ∧ n ≤ 32767 →
      (∃ v, evaluate ('[' :: (text ++ [']'])) = .ok (.vector v) ∧ v.toInt = 65536 * n) ∧
        evaluate ('[' :: (text ++ ']' :: ".Int()".toList)) = .ok (.integer (65536 * n))) ∧
    (-2 ^ 31 ≤ n ∧ n < -32768 ∨ 32767 < n ∧ n < 2 ^ 31 →
      (∃ e, evaluate ('[' :: (text ++ [']'])) = .error e) ∧
        ∃ e, evaluate ('[' :: (text ++ ']' :: ".Int()".toList)) = .error e) := by
  refine ⟨fun hn => ?_, fun hn => ?_, fun hn => ?_⟩
  · obtain ⟨v, hv, hi⟩ := Vec.ofText_wide h hn
    obtain ⟨hvec, hint⟩ := evaluate_readable h hv
    exact ⟨⟨v, hvec, hi⟩, by rw [hint, hi]⟩
  · obtain ⟨v, hv, hi⟩ := Vec.ofText_whole h hn
    obtain ⟨hvec, hint⟩ := evaluate_readable h hv
    exact ⟨⟨v, hvec, hi⟩, by rw [hint, hi]⟩
  · obtain ⟨e, he⟩ := Vec.ofText_gap h hn
    exact evaluate_unreadable h he

/-- The least integer in one word, its neighbour below, and the last whole number. -/
theorem evaluate_bracketed_integer_ends :
    (∃ e, evaluate ('[' :: (Text.ofInt (-2147483648) ++ ']' :: ".Int()".toList)) = .error e) ∧
    evaluate ('[' :: (Text.ofInt (-2147483649) ++ ']' :: ".Int()".toList)) =
      .ok (.integer (-2147483649)) ∧
    evaluate ('[' :: (Text.ofInt 32767 ++ ']' :: ".Int()".toList)) = .ok (.integer 2147418112) := by
  obtain ⟨-, -, gap⟩ := evaluate_bracketed_integer (Decimal.denotesInt_ofInt (-2147483648))
  obtain ⟨wide, -, -⟩ := evaluate_bracketed_integer (Decimal.denotesInt_ofInt (-2147483649))
  obtain ⟨-, whole, -⟩ := evaluate_bracketed_integer (Decimal.denotesInt_ofInt 32767)
  exact ⟨(gap (by decide)).2, (wide (by decide)).2, (whole (by decide)).2⟩

end BinaryPoint
