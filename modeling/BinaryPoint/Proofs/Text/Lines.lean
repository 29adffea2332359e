import Mathlib.Data.List.DropRight
import BinaryPoint.Proofs.Text.Pieces

/-!
# Lines

`Text.lines` is a text cut at its newlines, with a last line that may be empty. Blanks come off
a line once and for all, and a text that ends each of its lines gives them back.

* `lines_append`: the lines of two texts with a newline between them.
* `lines_flatMap_newline`: texts that are written as lines are the lines of what is written.
* `trim_trim`: nothing is left to trim.
-/
namespace BinaryPoint.Text

/-- The lines of a text, without their newlines. -/
def lines (text : Text) : List Text := splitWhen (· == '\n') text

theorem lines_append (text rest : Text) : lines (text ++ '\n' :: rest) = lines text ++ lines rest :=
  splitWhen_append_delimiter (by simp) text rest

theorem lines_nil : lines [] = [[]] := rfl

theorem lines_of_not_mem {text : Text} (h : '\n' ∉ text) : lines text = [text] :=
  splitWhen_singleton fun c hc => by simpa using fun e : c = '\n' => h (e ▸ hc)

theorem lines_flatMap_newline {texts : List Text} (h : ∀ text ∈ texts, '\n' ∉ text) :
    lines (texts.flatMap (· ++ ['\n'])) = texts ++ [[]] := by
  induction texts with
  | nil => exact lines_nil
  | cons text texts ih =>
    have ht : '\n' ∉ text := h text List.mem_cons_self
    rw [List.flatMap_cons, List.append_assoc, List.singleton_append, lines_append,
      lines_of_not_mem ht, ih fun t ht => h t (List.mem_cons_of_mem _ ht)]
    rfl

/-! ## Blanks at the ends -/

theorem trim_eq (text : Text) : trim text = (text.dropWhile isBlank).rdropWhile isBlank := rfl

theorem dropWhile_trim (text : Text) : (trim text).dropWhile isBlank = trim text := by
  have hprefix : trim text <+: text.dropWhile isBlank := List.rdropWhile_prefix isBlank _
  cases ht : trim text with
  | nil => rfl
  | cons c rest =>
    -- the first character left is the first of the text that is no blank
    obtain ⟨more, hmore⟩ := hprefix
    rw [ht, List.cons_append] at hmore
    have hc := List.head?_dropWhile_not isBlank text
    rw [← hmore, List.head?_cons] at hc
    simpa using hc

theorem trim_trim (text : Text) : trim (trim text) = trim text := by
  rw [trim_eq (trim text), dropWhile_trim, trim_eq, List.rdropWhile_idempotent]

end BinaryPoint.Text
