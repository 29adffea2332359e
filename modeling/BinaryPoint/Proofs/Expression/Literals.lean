import Mathlib.Data.List.Basic
import BinaryPoint.Expression.Token
import BinaryPoint.Proofs.Text.Numbers
import BinaryPoint.Proofs.Text.Pieces

/-!
# What literals consist of

Hex and decimal literals and the items of vectors are written with few characters, none of
them a quote or a bracket. A vector literal is its bracket groups with brackets around and
between them.

* `isItemChar_of_isHex`, `isItemChar_of_isDecimal`, `isItemChar_of_isVector`: the characters of
  literals and of bracket groups.
* `join_groups`, `eq_of_interior?`: a vector literal from its groups.
-/
namespace BinaryPoint.Literal

/-- A character of the items of a vector, or a comma between them. -/
def IsItemChar (c : Char) : Prop :=
  Text.isHexDigit c = true ∨ c = '#' ∨ c = '.' ∨ c = '-' ∨ c = ','

/-- What each of these characters satisfies. -/
@[elab_as_elim] theorem IsItemChar.of_all {motive : Char → Prop} [DecidablePred motive] {c : Char}
    (h : IsItemChar c) (chars : "0123456789abcdefABCDEF#.-,".toList.all (motive ·) = true) :
    motive c := by
  refine of_decide_eq_true (List.all_eq_true.mp chars c ?_)
  rcases h with h | rfl | rfl | rfl | rfl
  · exact List.mem_append_left "#.-,".toList (Text.mem_of_isHexDigit h)
  all_goals decide

theorem IsItemChar.not_mem {c : Char} (h : IsItemChar c) : c ∉ ['"', '[', ']', 'x'] :=
  h.of_all (by decide)

theorem isBlank_of_isItemChar {c : Char} (h : IsItemChar c) : Text.isBlank c = false :=
  h.of_all (by decide)

theorem isItemChar_of_isHexDigits {text : Text} (h : Text.isHexDigits text = true) :
    ∀ c ∈ text, IsItemChar c := by
  intro c hc
  simp only [Text.isHexDigits, Bool.and_eq_true, List.all_eq_true] at h
  exact .inl (h.2 c hc)

theorem isItemChar_of_isDigits {text : Text} (h : Text.isDigits text = true) :
    ∀ c ∈ text, IsItemChar c := by
  intro c hc
  simp only [Text.isDigits, Bool.and_eq_true, List.all_eq_true] at h
  exact .inl (by simp [Text.isHexDigit, h.2 c hc])

theorem isHex_iff {text : Text} :
    isHex text = true ↔ ∃ digits, text = '#' :: digits ∧ Text.isHexDigits digits = true := by
  constructor
  · intro h
    unfold isHex at h
    split at h
    · rename_i digits hd
      exact ⟨digits, Text.eq_of_dropMark_true hd, h⟩
    · cases h
  · rintro ⟨digits, rfl, h⟩
    exact h

theorem isItemChar_of_isHex {text : Text} (h : isHex text = true) : ∀ c ∈ text, IsItemChar c := by
  obtain ⟨digits, rfl, hd⟩ := isHex_iff.mp h
  intro c hc
  rcases List.mem_cons.mp hc with rfl | hc
  · exact .inr (.inl rfl)
  · exact isItemChar_of_isHexDigits hd c hc

theorem isItemChar_of_isDecimal {text : Text} (h : isDecimal text = true) :
    ∀ c ∈ text, IsItemChar c := by
  unfold isDecimal at h
  split at h
  · rename_i whole places hd
    obtain ⟨rfl, _⟩ := Text.cutAt_eq_some.mp hd
    rw [Bool.and_eq_true] at h
    intro c hc
    rcases List.mem_append.mp hc with hc | hc
    · exact isItemChar_of_isDigits h.1 c hc
    · rcases List.mem_cons.mp hc with rfl | hc
      · exact .inr (.inr (.inl rfl))
      · exact isItemChar_of_isDigits h.2 c hc
  · exact isItemChar_of_isDigits h

/-- A decimal begins with a digit. -/
theorem exists_digit_of_isDecimal {text : Text} (h : isDecimal text = true) :
    ∃ d more, text = d :: more ∧ Text.isDigit d = true := by
  have digits {whole rest : Text} (hw : Text.isDigits whole = true) :
      ∃ d more, whole ++ rest = d :: more ∧ Text.isDigit d = true := by
    obtain ⟨hne, hd⟩ := Text.isDigits_iff.mp hw
    obtain ⟨d, more, rfl⟩ := List.exists_cons_of_ne_nil hne
    exact ⟨d, more ++ rest, rfl, hd d List.mem_cons_self⟩
  unfold isDecimal at h
  split at h
  · rename_i whole places hc
    rw [Bool.and_eq_true] at h
    rw [(Text.cutAt_eq_some.mp hc).1]
    exact digits h.1
  · rw [← List.append_nil text]
    exact digits h

theorem isItemChar_of_isItem {text : Text} (h : isItem text = true) :
    ∀ c ∈ text, IsItemChar c := by
  simp only [isItem, Bool.or_eq_true] at h
  rcases h with (h | h) | h
  · rw [List.isEmpty_iff.mp h]; exact fun _ hc => nomatch hc
  · exact isItemChar_of_isHex h
  · intro c hc
    rcases Text.mem_of_mem_dropMark '-' hc with rfl | hc
    · exact .inr (.inr (.inr (.inl rfl)))
    · exact isItemChar_of_isDecimal h c hc

theorem isHex_of_classify {text : Text} (h : classify text = .hex) : isHex text = true := by
  unfold classify at h; grind

theorem isDecimal_of_classify {text : Text} (h : classify text = .decimal) :
    isDecimal text = true := by
  unfold classify at h; grind

theorem isVector_of_classify {text : Text} (h : classify text = .vector) :
    isVector text = true := by
  unfold classify at h; grind

theorem isHex_or_isDecimal {text : Text} (h : classify text ≠ .other)
    (hv : isVector text = false) : isHex text = true ∨ isDecimal text = true := by
  unfold classify at h; grind

theorem isDecimal_of_other {text : Text} (h : classify text = .other) :
    isDecimal text = false := by
  unfold classify at h; grind

/-! ## Bracket groups -/

theorem eq_of_interior? {text interior : Text} (h : interior? text = some interior) :
    text = '[' :: (interior ++ [']']) := by
  unfold interior? at h
  split at h
  · rename_i rest
    split at h
    · rename_i hl
      cases h
      rw [Bool.and_eq_true, decide_eq_true_eq] at hl
      rw [List.dropLast_append_getLast? _ hl.1]
    · cases h
  · cases h

theorem exists_interior {text : Text} (h : isVector text = true) :
    ∃ interior, interior? text = some interior := by
  unfold isVector at h
  cases hi : interior? text with
  | none => rw [hi] at h; cases h
  | some interior => exact ⟨interior, rfl⟩

theorem openBracket_mem_of_isVector {text : Text} (h : isVector text = true) : '[' ∈ text := by
  obtain ⟨interior, hi⟩ := exists_interior h
  rw [eq_of_interior? hi]; exact List.mem_cons_self

theorem getLast?_of_isVector {text : Text} (h : isVector text = true) :
    text.getLast? = some ']' := by
  obtain ⟨interior, hi⟩ := exists_interior h
  rw [eq_of_interior? hi, List.getLast?_cons, List.getLast?_concat]; rfl

theorem isDecimal_of_isVector {text : Text} (h : isVector text = true) : isDecimal text = false :=
  Bool.eq_false_iff.mpr fun he =>
    (isItemChar_of_isDecimal he _ (openBracket_mem_of_isVector h)).not_mem (by decide)

theorem classify_of_isVector {text : Text} (h : isVector text = true) : classify text = .vector := by
  have hhex : isHex text = false := Bool.eq_false_iff.mpr fun he =>
    (isItemChar_of_isHex he _ (openBracket_mem_of_isVector h)).not_mem (by decide)
  simp [classify, hhex, isDecimal_of_isVector h, h]

theorem isVector_of_bracket {text : Text} (h : classify text ≠ .other) (hb : '[' ∈ text) :
    isVector text = true := by
  cases hv : isVector text with
  | true => rfl
  | false =>
    have hc : IsItemChar '[' := (isHex_or_isDecimal h hv).elim
      (fun h => isItemChar_of_isHex h _ hb) fun h => isItemChar_of_isDecimal h _ hb
    exact absurd (by decide) hc.not_mem

/-- No literal begins as the text does. -/
def BeginsNone (text : Text) : Prop :=
  ∀ c ∈ text.head?, c ≠ '[' ∧ c ≠ '#' ∧ Text.isDigit c = false

/-- A run that begins like none of the literals is none of them. -/
theorem classify_of_head {text : Text} (h : BeginsNone text) : classify text = .other := by
  have hhex : isHex text = false := by
    rw [Bool.eq_false_iff]
    intro hx
    obtain ⟨digits, rfl, -⟩ := isHex_iff.mp hx
    exact (h '#' rfl).2.1 rfl
  have hdec : isDecimal text = false := by
    rw [Bool.eq_false_iff]
    intro hd
    obtain ⟨d, more, rfl, hdigit⟩ := exists_digit_of_isDecimal hd
    rw [(h d rfl).2.2] at hdigit
    cases hdigit
  have hvec : isVector text = false := by
    rw [Bool.eq_false_iff]
    intro hv
    obtain ⟨interior, hi⟩ := exists_interior hv
    exact (h '[' (by rw [eq_of_interior? hi]; rfl)).1 rfl
  simp [classify, hhex, hdec, hvec]

/-- No literal but vectors has a comma. -/
theorem classify_of_comma {text : Text} (h : ',' ∈ text) (hb : '[' ∉ text) :
    classify text = .other := by
  have hd {digits : Text} (hd : Text.isDigits digits = true) : ',' ∉ digits := fun hm =>
    absurd ((Text.isDigits_iff.mp hd).2 _ hm) (by decide)
  have hhex : isHex text = false := by
    rw [Bool.eq_false_iff]
    intro hx
    obtain ⟨digits, rfl, hdigits⟩ := isHex_iff.mp hx
    have hm := (List.mem_cons.mp h).resolve_left (by decide)
    exact absurd ((Text.isHexDigits_iff.mp hdigits).2 _ hm) (by decide)
  have hdec : isDecimal text = false := by
    rw [Bool.eq_false_iff]
    intro hx
    unfold isDecimal at hx
    split at hx
    · rename_i whole places hc
      rw [Bool.and_eq_true] at hx
      rw [(Text.cutAt_eq_some.mp hc).1, List.mem_append, List.mem_cons] at h
      rcases h with h | h | h
      · exact hd hx.1 h
      · cases h
      · exact hd hx.2 h
    · exact hd hx h
  have hvec : isVector text = false :=
    Bool.eq_false_iff.mpr fun hv => hb (openBracket_mem_of_isVector hv)
  simp [classify, hhex, hdec, hvec]

theorem join_groups_go (interior group : Text) (done : List Text) :
    Text.join [']', ',', '['] (groups.go group done interior) =
      Text.join [']', ',', '['] (done.reverse ++ [group.reverse ++ interior]) := by
  fun_induction groups.go group done interior with
  | case1 => simp
  | case2 group done rest ih =>
    rw [ih, List.reverse_cons, List.append_assoc, List.singleton_append, Text.join_append_pair]
    rfl
  | case3 group done c rest _ ih => rw [ih, List.reverse_cons, List.append_assoc]; rfl

theorem join_groups (interior : Text) :
    Text.join [']', ',', '['] (groups interior) = interior := by
  rw [groups, join_groups_go]; simp [Text.join]

theorem isItemChar_of_items {group : Text} (h : ∀ item ∈ items group, isItem item = true) :
    ∀ c ∈ group, IsItemChar c := by
  intro c hc
  rcases Text.mem_splitWhen (· == ',') hc with hd | ⟨item, hm, hc⟩
  · exact .inr (.inr (.inr (.inr (by simpa using hd))))
  · exact isItemChar_of_isItem (h item hm) c hc

theorem isItemChar_of_isVector {text interior : Text} (h : isVector text = true)
    (hi : interior? text = some interior) : ∀ g ∈ groups interior, ∀ c ∈ g, IsItemChar c := by
  intro g hg
  simp only [isVector, hi, Option.any_some, List.all_eq_true] at h
  exact isItemChar_of_items (h g hg)

end BinaryPoint.Literal
