import BinaryPoint.Proofs.Expression.BracketedIntegers
import BinaryPoint.Proofs.Text.JsonText

/-!
# What is printed can be read

Scalars and vectors are printed as literals. These read back by themselves, from JSON, and as
expressions: the literal of a scalar stays one run, and the literals of a vector stay one run in
their brackets, without the blanks between them.

* `ofJson_toJson`: the JSON forms of a scalar and of a vector read back.
* `evaluate_literal`, `evaluate_render`: their texts as expressions.
* `evaluate_printed`: all of these, and the digits of the integer of a vector in brackets.
-/
namespace BinaryPoint

open Literal (IsGroup)
open WideLiteral (IsPadded)

/-! ## Scalars -/

namespace Scalar

theorem ofJson_toJson (s : Scalar) : ofJson s.toJson = .ok s := by
  rw [toJson, ofJson, ofLiteral_literal]
  rfl

theorem isHex_literal (s : Scalar) : Literal.isHex s.literal = true := s.isHexDigits_hex

theorem stripped_literal (s : Scalar) : Text.stripped s.literal = s.literal :=
  Text.stripped_eq_self fun _ hc =>
    Literal.isBlank_of_isItemChar (Vec.isItemChar_of_mem_literal hc).1

/-- The literal of a scalar is one run. -/
theorem ofText_literal (s : Scalar) : Token.ofText s.literal = [⟨.run, s.literal⟩] := by
  have hs : ∀ c ∈ s.literal, Token.Stays 0 c := fun c hc => by
    obtain ⟨hi, hn⟩ := Vec.isItemChar_of_mem_literal hc
    exact Token.stays_of_isItemChar hi (fun e => hn (by simp [e])) fun e => absurd (by simp [e]) hn
  have hc := Token.cut_run hs [] []
  rw [List.append_nil] at hc
  rw [Token.ofText_eq, stripped_literal, hc, Token.cut, Token.reverse_closeRun]
  simp [Token.closeRun, literal]

theorem evaluate_literal (s : Scalar) : evaluate s.literal = .ok (.scalar s) := by
  have hq : '"' ∉ s.literal := fun hm =>
    (Vec.isItemChar_of_mem_literal hm).1.not_mem (by decide)
  have hp : prepare s.literal = Prepared.construct Prepared.scalarConstructor s.literal := by
    rw [prepare, ofText_literal, Prepared.ofTokens, Prepared.pieces, Prepared.collect]
    simp [Prepared.piece, Literal.classify, isHex_literal]
  rw [evaluate, hp, evaluatePrepared_construct_alone (.inl rfl) hq,
    Call.function_scalarConstructor, ofLiteral_literal]
  rfl

end Scalar

/-! ## Vectors -/

namespace Vec

theorem ofJson_toJson (v : Vec) : ofJson v.toJson = .ok v := by
  have hm : ∀ ws : List Scalar, (ws.map Scalar.toJson).mapM Scalar.ofJson = .ok ws := by
    intro ws
    induction ws with
    | nil => rfl
    | cons w ws ih => rw [List.map_cons, List.mapM_cons, Scalar.ofJson_toJson, ih]; rfl
  rw [toJson, ofJson, hm]
  rfl

end Vec

/-- Without the blanks behind its commas the text of a vector is one bracket group. -/
def Vec.group (v : Vec) : Text := Text.join [','] (v.components.map Scalar.literal)

namespace Vec

theorem stripped_render (v : Vec) : Text.stripped v.render = '[' :: (v.group ++ [']']) := by
  have hs : ∀ ws : List Scalar,
      (ws.map Scalar.literal).map Text.stripped = ws.map Scalar.literal := by
    intro ws
    rw [List.map_map]
    exact List.map_congr_left fun w _ => Scalar.stripped_literal w
  rw [render, bracketed, Text.stripped_append, Text.stripped_append, Text.stripped_join, hs]
  rfl

theorem items_group (v : Vec) : Literal.items v.group = v.components.map Scalar.literal := by
  refine Text.splitWhen_join (by decide) (by simp [components_ne_nil]) fun t ht d hd => ?_
  obtain ⟨w, -, rfl⟩ := List.mem_map.mp ht
  rw [beq_eq_false_iff_ne]
  exact fun e => (isItemChar_of_mem_literal hd).2 (by simp [e])

theorem group_ne_nil (v : Vec) : v.group ≠ [] := by
  intro h
  have hi := v.items_group
  rw [h] at hi
  have hm : ([] : Text) ∈ v.components.map Scalar.literal := by rw [← hi]; exact List.mem_cons_self
  obtain ⟨w, -, hw⟩ := List.mem_map.mp hm
  cases hw

theorem isGroup_group (v : Vec) : IsGroup v.group where
  ne_nil := v.group_ne_nil
  items item hi := by
    rw [items_group] at hi
    obtain ⟨w, -, rfl⟩ := List.mem_map.mp hi
    simp [Literal.isItem, Scalar.isHex_literal]

theorem evaluate_render (v : Vec) : evaluate v.render = .ok (.vector v) :=
  evaluate_brackets v.isGroup_group v.stripped_render
    (ofText_literals (by simp) (List.all_eq_true.mp rfl) v)

theorem evaluate_render_int (v : Vec) :
    evaluate (v.render ++ ".Int()".toList) = .ok (.integer v.toInt) := by
  refine evaluate_brackets_int v.isGroup_group ?_
    (ofText_literals (by simp) (List.all_eq_true.mp rfl) v)
  have hi : Text.stripped ".Int()".toList = ".Int()".toList := rfl
  rw [Text.stripped_append, stripped_render, hi, List.cons_append, List.append_assoc]
  rfl

end Vec

/-! ## All forms -/

/-- **What is printed can be read.** Scalars and vectors of any length read back from their text,
as expressions and from JSON, and scalars from their decimal text too; and a vector whose first
component is needed reads back from the digits of its integer. -/
theorem evaluate_printed :
    (∀ s : Scalar, evaluate s.literal = .ok (.scalar s) ∧ Scalar.ofLiteral s.literal = .ok s ∧
      Scalar.ofLiteral s.decimalText = .ok s ∧ Scalar.ofJson s.toJson = .ok s ∧
      (Json.ofText s.toJson.render).map Scalar.ofJson = some (.ok s)) ∧
    (∀ v : Vec, evaluate v.render = .ok (.vector v) ∧ Vec.ofText v.render = .ok v ∧
      Vec.ofJson v.toJson = .ok v ∧
      (Json.ofText v.toJson.render).map Vec.ofJson = some (.ok v)) ∧
    ∀ v : Vec, evaluate (v.render ++ ".Int()".toList) = .ok (.integer v.toInt) ∧
      (2 ≤ v.length → ¬IsPadded v.components →
        evaluate ('[' :: (Text.ofInt v.toInt ++ [']'])) = .ok (.vector v)) := by
  refine ⟨fun s => ?_, fun v => ?_, fun v => ⟨v.evaluate_render_int, fun hl hp => ?_⟩⟩
  · refine ⟨s.evaluate_literal, s.ofLiteral_literal, s.ofLiteral_decimalText, s.ofJson_toJson, ?_⟩
    rw [Json.ofText_render, Option.map_some, s.ofJson_toJson]
  · refine ⟨v.evaluate_render, v.ofText_render, v.ofJson_toJson, ?_⟩
    rw [Json.ofText_render, Option.map_some, v.ofJson_toJson]
  · exact (evaluate_readable (Decimal.denotesInt_ofInt v.toInt) (Vec.ofText_ofInt_toInt hl hp)).1

/-- A zero component is needed before one with the sign bit. -/
theorem evaluate_printed_zero_min :
    let v : Vec := ⟨.zero, [.min]⟩
    evaluate v.render = .ok (.vector v) ∧ (2 ≤ v.length ∧ ¬IsPadded v.components) ∧
      evaluate ('[' :: (Text.ofInt v.toInt ++ [']'])) = .ok (.vector v) := by
  intro v
  obtain ⟨-, vectors, integers⟩ := evaluate_printed
  have needed : ¬IsPadded v.components := by
    have h : v.components = [Scalar.zero, Scalar.min] := rfl
    rw [h, WideLiteral.isPadded_cons]; decide
  exact ⟨(vectors v).1, ⟨by decide, needed⟩, (integers v).2 (by decide) needed⟩

end BinaryPoint
