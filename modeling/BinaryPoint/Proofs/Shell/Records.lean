import BinaryPoint.Proofs.Decimal.Integers
import BinaryPoint.Proofs.Expression.Refusals
import BinaryPoint.Proofs.Text.JsonText
import BinaryPoint.Shell.Session

/-!
# Records

The line for an expression ends at its only newline. Texts and characters of the user stand in
messages with escapes, the names among them fit on a line, and numbers are digits; in JSON every
string has its escapes. So nothing that a line is made of holds a newline, as long as colours add
none.

* `EvalError.newline_not_mem_message`: messages, by the names that the error holds.
* `Quantity.newline_not_mem_describe`, `Json.newline_not_mem_render`: results.
* `Styling.newline_not_mem_escapes`: colours by escape sequences.
* `Outcome.newline_not_mem_render`: the line for an expression, without its end.
-/
namespace BinaryPoint

/-! ## Numbers and quoted text -/

namespace Text

theorem newline_ne_digitChar {d : Nat} (h : d < 16) : '\n' ≠ Nat.digitChar d := by
  interval_cases d <;> decide

theorem newline_not_mem_toDigits (n : Nat) : '\n' ∉ Nat.toDigits 16 n := by
  induction n using Nat.strongRecOn with
  | ind n ih =>
    rw [Nat.toDigits_eq_if (by omega)]
    split
    · rename_i h
      exact fun hm => newline_ne_digitChar h (List.mem_singleton.mp hm)
    · exact List.not_mem_append (ih (n / 16) (by omega))
        fun hm => newline_ne_digitChar (Nat.mod_lt n (by decide)) (List.mem_singleton.mp hm)

theorem newline_not_mem_ofInt (n : Int) : '\n' ∉ ofInt n := fun h =>
  ((Decimal.denotesInt_ofInt n).of_mem h).elim (by decide) (by decide)

theorem newline_not_mem_ofNat (n : Nat) : '\n' ∉ ofNat n :=
  Decimal.not_mem_of_isDigits (isDigits_ofNat n) (by decide)

theorem newline_not_mem_escaped (quote c : Char) : '\n' ∉ escaped quote c := by
  have hdigits := newline_not_mem_toDigits c.toNat
  by_cases hn : c = '\n'
  · simp [escaped, hn]
  · have := Ne.symm hn
    unfold escaped
    repeat' split
    all_goals simp [this, hdigits]

theorem newline_not_mem_quoted (text : Text) : '\n' ∉ quoted text := by
  have h : '\n' ∉ text.flatMap (escaped '"') := by
    simp [List.mem_flatMap, newline_not_mem_escaped]
  simp [quoted, h]

theorem newline_not_mem_quotedChar (c : Char) : '\n' ∉ quotedChar c := by
  simp [quotedChar, newline_not_mem_escaped]

theorem newline_not_mem_join {separator : Text} (hs : '\n' ∉ separator) {texts : List Text}
    (h : ∀ text ∈ texts, '\n' ∉ text) : '\n' ∉ join separator texts := by
  intro hn
  rcases of_mem_join hn with hn | ⟨text, ht, hn⟩
  · exact hs hn
  · exact h text ht hn

end Text

/-! ## Messages -/

theorem Malformed.newline_not_mem_message (defect : Malformed) : '\n' ∉ defect.message := by
  cases defect <;> decide +kernel

theorem Expected.newline_not_mem_message (expected : Expected) : '\n' ∉ expected.message := by
  cases expected <;> decide +kernel

theorem OperandKind.newline_not_mem_name (kind : OperandKind) : '\n' ∉ kind.name := by
  cases kind <;> decide +kernel

theorem NumberError.newline_not_mem_message (e : NumberError) : '\n' ∉ e.message := by
  cases e with
  | malformed literal defect =>
    exact List.not_mem_append (List.not_mem_append (List.not_mem_append (by decide +kernel)
      (Text.newline_not_mem_quoted literal)) (by decide +kernel)) defect.newline_not_mem_message
  | wholeRange value =>
    exact List.not_mem_append (List.not_mem_append (by decide +kernel)
      (Text.newline_not_mem_ofInt value)) (by decide +kernel)
  | fractionRange value =>
    exact List.not_mem_append (List.not_mem_append (by decide +kernel)
      (Text.newline_not_mem_ofInt value)) (by decide +kernel)
  | lengthMismatch expected got =>
    exact List.not_mem_append (List.not_mem_append (List.not_mem_append (by decide +kernel)
      (Text.newline_not_mem_ofNat expected)) (by decide +kernel)) (Text.newline_not_mem_ofNat got)
  | divisionByZero => decide +kernel
  | noComponents => decide +kernel

theorem EvalError.newline_not_mem_message {e : EvalError} (h : e.NamesFit) : '\n' ∉ e.message := by
  cases e with
  | number cause =>
    exact List.not_mem_append (by decide +kernel) cause.newline_not_mem_message
  | unexpectedChar c offset =>
    exact List.not_mem_append (List.not_mem_append (List.not_mem_append (by decide +kernel)
      (Text.newline_not_mem_quotedChar c)) (by decide +kernel)) (Text.newline_not_mem_ofNat offset)
  | unexpectedLexeme found expected =>
    exact List.not_mem_append (List.not_mem_append (List.not_mem_append (by decide +kernel)
      (Text.newline_not_mem_quoted found)) (by decide +kernel)) expected.newline_not_mem_message
  | unexpectedEnd expected =>
    exact List.not_mem_append (by decide +kernel) expected.newline_not_mem_message
  | unknownFunction name => exact List.not_mem_append (by decide +kernel) h
  | unknownMethod method receiver =>
    exact List.not_mem_append (List.not_mem_append (List.not_mem_append (by decide +kernel) h)
      (by decide +kernel)) receiver.newline_not_mem_name
  | argumentCount call expected got =>
    exact List.not_mem_append (List.not_mem_append (List.not_mem_append (List.not_mem_append h
      (by decide +kernel)) (Text.newline_not_mem_ofNat expected)) (by decide +kernel))
      (Text.newline_not_mem_ofNat got)
  | undefinedFor operation operand =>
    exact List.not_mem_append (List.not_mem_append (List.not_mem_append (by decide +kernel) h)
      (by decide +kernel)) operand.newline_not_mem_name
  | tooDeep limit =>
    exact List.not_mem_append (List.not_mem_append (by decide +kernel)
      (Text.newline_not_mem_ofNat limit)) (by decide +kernel)
  | empty => decide +kernel

/-! ## Results -/

namespace Scalar

theorem newline_not_mem_literal (s : Scalar) : '\n' ∉ s.literal := by
  intro h
  rcases List.mem_cons.mp h with h | h
  · cases h
  · exact absurd (Text.isHexDigit_of_mem_padded _ _ _ h) (by decide)

theorem newline_not_mem_decimalText (s : Scalar) : '\n' ∉ s.decimalText := by
  have hd : ∀ width n, '\n' ∉ Text.padded 10 width n := fun width n h =>
    absurd (Text.isDigit_of_mem_padded width n _ h) (by decide)
  unfold decimalText Decimal.render
  split <;> simp [hd]

theorem newline_not_mem_described (s : Scalar) : '\n' ∉ s.described := by
  simp [described, newline_not_mem_literal, newline_not_mem_decimalText]

end Scalar

theorem Quantity.newline_not_mem_describe (q : Quantity) : '\n' ∉ q.describe := by
  cases q with
  | scalar s => exact s.newline_not_mem_described
  | vector v =>
    have : '\n' ∉ Text.join [',', ' '] (v.components.map Scalar.described) := by
      refine Text.newline_not_mem_join (by decide) fun text ht => ?_
      obtain ⟨s, -, rfl⟩ := List.mem_map.mp ht
      exact s.newline_not_mem_described
    simpa [Quantity.describe, Vec.bracketed] using this
  | integer n => exact Text.newline_not_mem_ofInt n

namespace Json

theorem newline_not_mem_escaped (c : Char) : '\n' ∉ escaped c := by
  by_cases hn : c = '\n'
  · rw [hn]; decide
  · have hc := Ne.symm hn
    have high : c.toNat < 0x20 → '\n' ≠ Nat.digitChar (c.toNat / 16) := fun h =>
      Text.newline_ne_digitChar (by omega)
    have low : '\n' ≠ Nat.digitChar (c.toNat % 16) := Text.newline_ne_digitChar (by omega)
    unfold escaped
    repeat' split
    all_goals simp_all

theorem newline_not_mem_quoted (text : Text) : '\n' ∉ quoted text := by
  have h : '\n' ∉ text.flatMap escaped := by simp [List.mem_flatMap, newline_not_mem_escaped]
  simp [quoted, h]

mutual

theorem newline_not_mem_render : ∀ j : Json, '\n' ∉ j.render
  | .string text => by rw [render]; exact newline_not_mem_quoted text
  | .array items => by simp [render, newline_not_mem_renderItems items]
  | .object fields => by simp [render, newline_not_mem_renderFields fields]

theorem newline_not_mem_renderItems : ∀ items : List Json, '\n' ∉ renderItems items
  | [] => by simp [renderItems]
  | [item] => by rw [renderItems]; exact newline_not_mem_render item
  | item :: next :: rest => by
    simp [renderItems, newline_not_mem_render item, newline_not_mem_renderItems (next :: rest)]

theorem newline_not_mem_renderFields : ∀ fields : List (Text × Json), '\n' ∉ renderFields fields
  | [] => by simp [renderFields]
  | [(name, value)] => by
    simp [renderFields, newline_not_mem_quoted, newline_not_mem_render value]
  | (name, value) :: next :: rest => by
    simp [renderFields, newline_not_mem_quoted, newline_not_mem_render value,
      newline_not_mem_renderFields (next :: rest)]

end

end Json

/-! ## Outcomes -/

theorem Styling.newline_not_mem_escapes (color : Color) (text : Text) (h : '\n' ∉ text) :
    '\n' ∉ escapes color text := by
  unfold escapes
  refine List.not_mem_append (List.not_mem_append (List.not_mem_append (List.not_mem_append
    (by decide) ?_) (by decide)) h) (by decide)
  cases color <;> decide

namespace Outcome

theorem newline_not_mem_render {styled : Styling}
    (hstyled : ∀ color text, '\n' ∉ text → '\n' ∉ styled color text) (format : OutputFormat)
    (expression : Text) : '\n' ∉ (ofExpression expression).render styled format expression := by
  cases format with
  | json => exact Json.newline_not_mem_render _
  | text =>
    unfold ofExpression
    split
    · rename_i q _
      exact q.newline_not_mem_describe
    · rename_i e he
      have hred : '\n' ∉ styled .red "error:".toList := hstyled _ _ (by decide)
      exact List.not_mem_append (List.not_mem_append hred (by decide))
        (EvalError.newline_not_mem_message (namesFit_of_evaluate he))

end Outcome

end BinaryPoint
