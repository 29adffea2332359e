import Mathlib.Algebra.Order.Field.Rat
import BinaryPoint.Decimal
import BinaryPoint.Proofs.Text.Numbers
import BinaryPoint.Proofs.Text.Pieces

/-!
# Free decimal text

A numeral is a text of the form `-?[0-9]+(\.[0-9]+)?`, taken apart. Its value is exact: digits
behind the point weigh a tenth of those before them, however many there are.

* `Numeral.text`, `Numeral.value`, `Denotes`: the text of a numeral and the number it denotes.
* `ofText_numeral`: the reader hands the parts of a numeral on.
* `ofText_malformed`: it refuses every other text for its form.
* `Denotes.unique`: a text denotes one number at most.
-/
namespace BinaryPoint.Decimal

/-- The parts of free decimal text. -/
@[ext] structure Numeral where
  negative : Bool
  whole : Text
  places : Option Text
  whole_digits : Text.isDigits whole = true
  places_digits : ∀ p ∈ places, Text.isDigits p = true

/-- The value of digits behind a point. -/
def fractionValue : Text → ℚ
  | [] => 0
  | c :: rest => (Text.digitValue c + fractionValue rest) / 10

namespace Numeral

/-- The text without its sign. -/
def body (n : Numeral) : Text :=
  match n.places with
  | none => n.whole
  | some p => n.whole ++ '.' :: p

def text (n : Numeral) : Text := (if n.negative then ['-'] else []) ++ n.body

def magnitude (n : Numeral) : ℚ :=
  Text.decimalValue n.whole + fractionValue (n.places.getD [])

def value (n : Numeral) : ℚ := if n.negative then -n.magnitude else n.magnitude

end Numeral

/-- The text is a numeral of the number `q`. -/
def Denotes (text : Text) (q : ℚ) : Prop := ∃ n : Numeral, n.text = text ∧ n.value = q

/-! ## Taking a numeral apart -/

theorem not_mem_of_isDigits {digits : Text} (h : Text.isDigits digits = true) {c : Char}
    (hc : Text.isDigit c = false) : c ∉ digits := fun hm => by
  have := (Text.isDigits_iff.mp h).2 c hm
  rw [hc] at this; cases this

namespace Numeral

theorem dropMark_text (n : Numeral) : Text.dropMark '-' n.text = (n.negative, n.body) := by
  cases hn : n.negative with
  | true => simp [text, hn, Text.dropMark]
  | false =>
    obtain ⟨hne, hd⟩ := Text.isDigits_iff.mp n.whole_digits
    obtain ⟨c, rest, hw⟩ := List.exists_cons_of_ne_nil hne
    have hc : c ≠ '-' := by
      rintro rfl
      have := hd '-' (by rw [hw]; exact List.mem_cons_self)
      revert this; decide
    have hb : ∃ tail, n.body = c :: tail := by
      unfold body
      split
      · exact ⟨rest, hw⟩
      · exact ⟨_, by rw [hw]; rfl⟩
    obtain ⟨tail, hb⟩ := hb
    simp [text, hn, hb, Text.dropMark, hc]

theorem cutAt_body (n : Numeral) :
    Text.cutAt '.' n.body = n.places.map fun p => (n.whole, p) := by
  have hw : '.' ∉ n.whole := not_mem_of_isDigits n.whole_digits (by decide)
  unfold body
  split
  · rename_i hp; rw [hp, Text.cutAt_eq_none.mpr hw]; rfl
  · rename_i p hp; rw [hp, Text.cutAt_eq_some.mpr ⟨rfl, hw⟩]; rfl

theorem mark_not_mem_text (n : Numeral) : '#' ∉ n.text := by
  have hw : '#' ∉ n.whole := not_mem_of_isDigits n.whole_digits (by decide)
  rw [text, body, List.mem_append, not_or]
  constructor
  · split <;> decide
  · split
    · exact hw
    · rename_i p hp
      have hd : '#' ∉ p := not_mem_of_isDigits (n.places_digits p (by rw [hp]; rfl)) (by decide)
      simp [hw, hd]

theorem text_inj {n n' : Numeral} (h : n.text = n'.text) : n = n' := by
  have hd := n.dropMark_text.symm.trans ((congrArg _ h).trans n'.dropMark_text)
  obtain ⟨hneg, hbody⟩ := Prod.mk.inj hd
  have hc := n.cutAt_body.symm.trans ((congrArg _ hbody).trans n'.cutAt_body)
  cases hp : n.places with
  | none =>
    cases hp' : n'.places with
    | none =>
      simp only [body, hp, hp'] at hbody
      exact Numeral.ext hneg hbody (hp.trans hp'.symm)
    | some p' => rw [hp, hp'] at hc; cases hc
  | some p =>
    cases hp' : n'.places with
    | none => rw [hp, hp'] at hc; cases hc
    | some p' =>
      rw [hp, hp', Option.map_some, Option.map_some, Option.some.injEq, Prod.mk.injEq] at hc
      exact Numeral.ext hneg hc.1 (by rw [hp, hp', hc.2])

end Numeral

theorem Denotes.unique {text : Text} {q q' : ℚ} (h : Denotes text q) (h' : Denotes text q') :
    q = q' := by
  obtain ⟨n, rfl, rfl⟩ := h
  obtain ⟨n', ht, rfl⟩ := h'
  rw [Numeral.text_inj ht]

/-! ## Reading -/

/-- The reader works on the parts of a numeral. -/
theorem ofText_numeral (n : Numeral) :
    ofText n.text = ofDigits n.negative n.whole (n.places.getD []) := by
  have hc := n.cutAt_body
  simp only [ofText, n.dropMark_text]
  cases hp : n.places with
  | none =>
    have hb : n.body = n.whole := by rw [Numeral.body, hp]
    rw [hp, hb] at hc
    simp [hc, hb, n.whole_digits]
  | some p =>
    rw [hp] at hc
    simp [hc, n.whole_digits, n.places_digits p (by rw [hp]; rfl)]

theorem text_eq_of_dropMark {text body : Text} {negative : Bool}
    (h : Text.dropMark '-' text = (negative, body)) :
    text = (if negative then ['-'] else []) ++ body := by
  cases negative with
  | true => exact Text.eq_of_dropMark_true h
  | false => exact Text.eq_of_dropMark_false h

/-- A text that is no numeral is malformed. -/
theorem ofText_malformed {text : Text} (h : ∀ n : Numeral, n.text ≠ text) :
    ∃ defect, ofText text = .error (.malformed text defect) := by
  obtain ⟨negative, body, hd⟩ : ∃ negative body, Text.dropMark '-' text = (negative, body) :=
    ⟨_, _, rfl⟩
  have ht := text_eq_of_dropMark hd
  simp only [ofText, hd]
  split
  · rename_i whole places hc
    split
    · exact ⟨_, rfl⟩
    · rename_i hp
      split
      · exact ⟨_, rfl⟩
      · rename_i hw
        simp only [Bool.not_eq_true, Bool.not_eq_false'] at hp hw
        refine absurd ?_ (h ⟨negative, whole, some places, hw, fun p hm => ?_⟩)
        · rw [ht, (Text.cutAt_eq_some.mp hc).1]; rfl
        · cases hm; exact hp
  · split
    · exact ⟨_, rfl⟩
    · rename_i hw
      simp only [Bool.not_eq_true, Bool.not_eq_false'] at hw
      exact absurd ht.symm (h ⟨negative, body, none, hw, nofun⟩)

end BinaryPoint.Decimal
