import BinaryPoint.Proofs.Expression.BracketedText
import BinaryPoint.Proofs.Scalar.SignedText

/-!
# The forms of literals and their readers

The form of a run is found by tests of its own, without reading it. The readers draw the same
line: what has the form of a scalar is refused for its size at most, and so is what stands in the
brackets of a vector, unless nothing stands there.

* `Formed`: a result that is refused for the size of a number at most.
* `formed_ofDecimalText`, `formed_expand`: numerals and the items of vectors have such results.
* `malformed_ofHex`, `malformed_ofDecimalText`: all other texts are malformed.
* `forms_agree`: the forms of scalars and vectors, and what is read.
-/
namespace BinaryPoint

open Decimal (Numeral)

/-- The number has the form of one, but no word holds it. -/
def NumberError.OutOfRange : NumberError → Prop
  | .wholeRange _ => True
  | .fractionRange _ => True
  | _ => False

/-- The result is refused for the size of a number, if at all. -/
def Formed {α : Type} (r : Except NumberError α) : Prop := ∀ e, r = .error e → e.OutOfRange

section Results

variable {α β : Type}

theorem formed_ok (a : α) : Formed (.ok a) := fun _ h => nomatch h

theorem Formed.not_malformed {r : Except NumberError α} (h : Formed r) (literal : Text)
    (defect : Malformed) : r ≠ .error (.malformed literal defect) := fun hr => h _ hr

theorem Formed.map {r : Except NumberError α} (h : Formed r) (f : α → β) : Formed (r.map f) := by
  intro e he
  cases r with
  | ok a => cases he
  | error e' => cases he; exact h e rfl

theorem Formed.mapM {f : α → Except NumberError β} {l : List α} (h : ∀ a ∈ l, Formed (f a)) :
    Formed (l.mapM f) := by
  intro e he
  obtain ⟨a, ha, hf⟩ := mapM_eq_error he
  exact h a ha e hf

end Results

/-! ## Forms of scalars -/

namespace Literal

variable {text : Text}

theorem classify_eq_hex : classify text = .hex ↔ isHex text = true :=
  ⟨isHex_of_classify, fun h => by simp [classify, h]⟩

theorem isDecimal_of_isHex (h : isHex text = true) : isDecimal text = false := by
  obtain ⟨digits, rfl, -⟩ := isHex_iff.mp h
  rw [Bool.eq_false_iff]
  intro hd
  obtain ⟨d, more, he, hdigit⟩ := exists_digit_of_isDecimal hd
  cases he
  revert hdigit; decide

theorem classify_eq_decimal : classify text = .decimal ↔ isDecimal text = true := by
  refine ⟨isDecimal_of_classify, fun h => ?_⟩
  cases hx : isHex text with
  | true => rw [isDecimal_of_isHex hx] at h; cases h
  | false => simp [classify, hx, h]

/-- Behind an optional minus the decimals are the numerals. -/
theorem isDecimal_dropMark :
    isDecimal (Text.dropMark '-' text).2 = true ↔ ∃ n : Numeral, n.text = text := by
  constructor
  · intro h
    obtain ⟨negative, body, hd⟩ : ∃ negative body, Text.dropMark '-' text = (negative, body) :=
      ⟨_, _, rfl⟩
    rw [hd] at h
    obtain ⟨n, hn, rfl⟩ := Decimal.exists_numeral h
    refine ⟨{ n with negative := negative }, ?_⟩
    rw [Decimal.text_eq_of_dropMark hd]
    simp [Numeral.text, Numeral.body, hn]
  · rintro ⟨n, rfl⟩
    rw [n.dropMark_text]
    exact isDecimal_body n

end Literal

namespace Scalar

/-- Hex text has no size that is too great, only too many digits. -/
theorem malformed_ofHex {text : Text} :
    (∃ literal defect, ofHex text = .error (.malformed literal defect)) ↔
      ¬(Text.isHexDigits (Text.dropMark '#' text).2 = true ∧
        (Text.dropMark '#' text).2.length ≤ 8) := by
  constructor
  · rintro ⟨literal, defect, he⟩ h
    rw [ofHex_eq_ok.mpr ⟨h, rfl⟩] at he
    cases he
  · intro h
    have hok : ∀ s, ofHex text ≠ .ok s := fun s hs => h (ofHex_eq_ok.mp hs).1
    unfold ofHex at hok ⊢
    dsimp only at hok ⊢
    split
    · exact ⟨_, _, rfl⟩
    · split
      · exact ⟨_, _, rfl⟩
      · rename_i hw hd
        rw [if_neg hw, if_neg hd] at hok
        exact absurd rfl (hok _)

theorem ReadAs.formed {s : ℤ} {r : Except NumberError Scalar} (h : ReadAs s r) : Formed r := by
  unfold ReadAs at h
  split at h
  · obtain ⟨v, rfl⟩ := h
    rintro _ ⟨⟩; trivial
  · split at h
    · obtain ⟨v, rfl⟩ := h
      rintro _ ⟨⟩; trivial
    · obtain ⟨x, rfl, -⟩ := h
      exact formed_ok x

theorem formed_ofDecimalText (n : Numeral) : Formed (ofDecimalText n.text) :=
  (ofDecimalText_readAs n).formed

theorem malformed_ofDecimalText {text : Text} :
    (∃ literal defect, ofDecimalText text = .error (.malformed literal defect)) ↔
      ¬∃ n : Numeral, n.text = text := by
  constructor
  · rintro ⟨literal, defect, he⟩ ⟨n, rfl⟩
    exact (formed_ofDecimalText n).not_malformed literal defect he
  · intro h
    obtain ⟨defect, he⟩ := Decimal.ofText_malformed fun n hn => h ⟨n, hn⟩
    exact ⟨text, defect, by rw [ofDecimalText, he]; rfl⟩

/-- A mark decides which of the two readers it is, and no numeral has one. -/
theorem malformed_ofLiteral (text : Text) :
    (∃ literal defect, ofLiteral text = .error (.malformed literal defect)) ↔
      ¬(Literal.classify text = .hex ∧ (Text.dropMark '#' text).2.length ≤ 8) ∧
        Literal.classify (Text.dropMark '-' text).2 ≠ .decimal := by
  rw [Literal.classify_eq_hex, ne_eq, Literal.classify_eq_decimal, Literal.isDecimal_dropMark,
    ofLiteral]
  by_cases hm : text.head? = some '#'
  · obtain ⟨digits, rfl⟩ : ∃ digits, text = '#' :: digits := List.head?_eq_some_iff.mp hm
    have hn : ¬∃ n : Numeral, n.text = '#' :: digits := by
      rintro ⟨n, hn⟩
      exact n.mark_not_mem_text (by rw [hn]; exact List.mem_cons_self)
    rw [if_pos hm, malformed_ofHex, and_iff_left hn]
    rfl
  · have hx : ¬Literal.isHex text = true := fun h => by
      obtain ⟨digits, rfl, -⟩ := Literal.isHex_iff.mp h
      exact hm rfl
    rw [if_neg hm, malformed_ofDecimalText]
    simp [hx]

end Scalar

/-! ## Items of vectors -/

namespace WideLiteral

theorem formed_expand_hex {digits : Text} (h : Text.isHexDigits digits = true) :
    Formed (expand ('#' :: digits)) := by
  by_cases hl : digits.length ≤ 8
  · have hs : Scalar.ofHex ('#' :: digits) = .ok _ := Scalar.ofHex_eq_ok.mpr ⟨⟨h, hl⟩, rfl⟩
    rw [expand_hexWord h hl, hs]
    exact formed_ok _
  · rw [expand_hex h (by omega)]
    exact formed_ok _

/-- Without a point a numeral may stand for several words, and with one it is a scalar. -/
theorem formed_expand_numeral (n : Numeral) : Formed (expand n.text) := by
  cases hp : n.places with
  | none =>
    rw [expand_denotesInt ⟨n, hp, rfl, rfl⟩]
    split
    · exact formed_ok _
    · exact (Scalar.formed_ofDecimalText n).map _
  | some places =>
    have hpoint : '.' ∈ n.text := by simp [Numeral.text, Numeral.body, hp]
    have hmark : n.text.head? ≠ some '#' := fun e => n.mark_not_mem_text (List.mem_of_head? e)
    rw [expand, if_pos (by simpa using hpoint), Scalar.ofLiteral, if_neg hmark]
    exact (Scalar.formed_ofDecimalText n).map _

theorem formed_expand {item : Text} (h : Literal.isItem item = true) (hne : item ≠ []) :
    Formed (expand item) := by
  simp only [Literal.isItem, Bool.or_eq_true] at h
  rcases h with (h | h) | h
  · exact absurd (List.isEmpty_iff.mp h) hne
  · obtain ⟨digits, rfl, hd⟩ := Literal.isHex_iff.mp h
    exact formed_expand_hex hd
  · obtain ⟨n, rfl⟩ := Literal.isDecimal_dropMark.mp h
    exact formed_expand_numeral n

end WideLiteral

namespace Vec

/-- The items of a bracket group are read one by one. -/
theorem ofText_items_error {group : Text} (h : ∀ item ∈ Literal.items group, Literal.isItem item = true)
    {e : NumberError} (he : ofText ('[' :: (group ++ [']'])) = .error e) :
    e.OutOfRange ∨ e = .noComponents := by
  have hl := literals_group fun c hc => not_isDelimiter_of_isItemChar
    (Literal.isItemChar_of_items h c hc)
  have hf : Formed (((Literal.items group).filter fun p => !p.isEmpty).mapM WideLiteral.expand) := by
    refine Formed.mapM fun item hm => ?_
    obtain ⟨hi, hne⟩ := List.mem_filter.mp hm
    exact WideLiteral.formed_expand (h item hi) (by simpa using hne)
  rw [ofText, hl] at he
  generalize ((Literal.items group).filter fun p => !p.isEmpty).mapM WideLiteral.expand = r at hf he
  cases r with
  | error e' => cases he; exact .inl (hf e rfl)
  | ok words =>
    change ofComponents words.flatten = .error e at he
    unfold ofComponents at he
    split at he
    · cases he; exact .inr rfl
    · cases he

end Vec

namespace Literal

/-- **Forms and readers.** A scalar literal is malformed exactly if it is neither hex of at most
eight digits nor a decimal behind an optional minus. What stands in the brackets of a group of a
vector literal is a vector, has a number that no word holds, or has no component. -/
theorem forms_agree :
    (∀ text : Text, (∃ literal defect, Scalar.ofLiteral text = .error (.malformed literal defect)) ↔
      ¬(classify text = .hex ∧ (Text.dropMark '#' text).2.length ≤ 8) ∧
        classify (Text.dropMark '-' text).2 ≠ .decimal) ∧
    ∀ text : Text, classify text = .vector → ∃ interior, text = '[' :: (interior ++ [']']) ∧
      ∀ group ∈ groups interior, (∃ v, Vec.ofText ('[' :: (group ++ [']'])) = .ok v) ∨
        ∃ e, Vec.ofText ('[' :: (group ++ [']'])) = .error e ∧
          (e.OutOfRange ∨ e = .noComponents) := by
  refine ⟨Scalar.malformed_ofLiteral, fun text h => ?_⟩
  have hv := isVector_of_classify h
  obtain ⟨interior, hi⟩ := exists_interior hv
  refine ⟨interior, eq_of_interior? hi, fun group hg => ?_⟩
  simp only [isVector, hi, Option.any_some, List.all_eq_true] at hv
  cases hr : Vec.ofText ('[' :: (group ++ [']'])) with
  | ok v => exact .inl ⟨v, rfl⟩
  | error e => exact .inr ⟨e, rfl, Vec.ofText_items_error (hv group hg) hr⟩

/-- Nine hex digits, a decimal with two signs, and groups of three kinds. -/
theorem forms_agree_three_groups :
    (∃ literal defect, Scalar.ofLiteral "#123456789".toList = .error (.malformed literal defect)) ∧
    (∃ literal defect, Scalar.ofLiteral "--1".toList = .error (.malformed literal defect)) ∧
    let text : Text := "[#123456789,-1.5],[40000,],[,]".toList
    classify text = .vector ∧ ∃ interior, text = '[' :: (interior ++ [']']) ∧
      ∀ group ∈ groups interior, (∃ v, Vec.ofText ('[' :: (group ++ [']'])) = .ok v) ∨
        ∃ e, Vec.ofText ('[' :: (group ++ [']'])) = .error e ∧
          (e.OutOfRange ∨ e = .noComponents) := by
  have hc : classify "[#123456789,-1.5],[40000,],[,]".toList = .vector := by decide +kernel
  exact ⟨(forms_agree.1 _).mpr (by decide), (forms_agree.1 _).mpr (by decide), hc,
    forms_agree.2 _ hc⟩

end Literal

end BinaryPoint
