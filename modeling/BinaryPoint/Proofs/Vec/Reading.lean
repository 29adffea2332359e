import BinaryPoint.Proofs.Expression.Literals
import BinaryPoint.Proofs.WideLiteral.Expand
import BinaryPoint.Vec

/-!
# Reading the text of a vector

Delimiters only separate, so the literals of pieces with delimiters around and between them are
the pieces, and the vector is what these stand for, one after the other.

* `literals_join`: the literals of pieces in brackets.
* `ofText_join`: the vector of literals in brackets.
* `ofText_wide`, `ofText_whole`, `ofText_gap`: the vector of an integer in brackets, by its size.
* `ofText_render`, `ofText_ofInt_toInt`: the text of a vector is read as that vector, and so are
  the digits of its integer if the first component is needed.
-/
namespace BinaryPoint.Vec

open Decimal (DenotesInt)
open Literal (IsItemChar)
open WideLiteral (expand IsPadded)

/-! ## Literals -/

/-- A text that is one literal among delimiters. -/
def IsPiece (text : Text) : Prop := text ≠ [] ∧ ∀ c ∈ text, isDelimiter c = false

theorem literals_delimiter {c : Char} (hc : isDelimiter c = true) (rest : Text) :
    literals (c :: rest) = literals rest := by
  have hs : Text.splitWhen isDelimiter ([] ++ c :: rest) = [] :: Text.splitWhen isDelimiter rest :=
    Text.splitWhen_append (List.forall_mem_nil _) hc rest
  rw [List.nil_append] at hs
  rw [literals, hs]; rfl

theorem literals_delimiters {separator : Text} (h : ∀ c ∈ separator, isDelimiter c = true)
    (rest : Text) : literals (separator ++ rest) = literals rest := by
  induction separator with
  | nil => rfl
  | cons c separator ih =>
    rw [List.cons_append, literals_delimiter (h c List.mem_cons_self),
      ih fun d hd => h d (List.mem_cons_of_mem c hd)]

theorem literals_piece {piece : Text} (hp : IsPiece piece) {c : Char} (hc : isDelimiter c = true)
    (rest : Text) : literals (piece ++ c :: rest) = piece :: literals rest := by
  rw [literals, Text.splitWhen_append hp.2 hc, List.filter_cons_of_pos]
  · rfl
  · simpa using hp.1

/-- Pieces with delimiters between them and behind them. -/
theorem literals_pieces {separator : Text} (hne : separator ≠ [])
    (hd : ∀ c ∈ separator, isDelimiter c = true) : ∀ {pieces : List Text},
    (∀ p ∈ pieces, IsPiece p) → literals (Text.join separator pieces ++ [']']) = pieces
  | [], _ => rfl
  | [p], h => by
    rw [Text.join_singleton, literals_piece (h p List.mem_cons_self) (by decide)]; rfl
  | p :: p' :: pieces, h => by
    obtain ⟨c, separator', rfl⟩ := List.exists_cons_of_ne_nil hne
    have ih := literals_pieces hne hd fun q hq => h q (List.mem_cons_of_mem p hq)
    rw [Text.join_cons _ _ (List.cons_ne_nil p' pieces), List.append_assoc, List.append_assoc,
      List.cons_append, literals_piece (h p List.mem_cons_self) (hd c List.mem_cons_self),
      literals_delimiters fun d hm => hd d (List.mem_cons_of_mem c hm), ih]

theorem literals_join {separator : Text} (hne : separator ≠ [])
    (hd : ∀ c ∈ separator, isDelimiter c = true) {pieces : List Text}
    (h : ∀ p ∈ pieces, IsPiece p) :
    literals ('[' :: (Text.join separator pieces ++ [']'])) = pieces := by
  rw [literals_delimiter (by decide), literals_pieces hne hd h]

/-! ## Vectors -/

theorem ofText_join {separator : Text} (hne : separator ≠ [])
    (hd : ∀ c ∈ separator, isDelimiter c = true) {pieces : List Text}
    (h : ∀ p ∈ pieces, IsPiece p) :
    ofText ('[' :: (Text.join separator pieces ++ [']'])) =
      (do ofComponents (← pieces.mapM expand).flatten) := by
  rw [ofText, literals_join hne hd h]

/-- One literal in brackets. -/
theorem ofText_piece {piece : Text} (h : IsPiece piece) :
    ofText ('[' :: (piece ++ [']'])) = (do ofComponents (← expand piece)) := by
  have hl : literals ('[' :: (piece ++ [']'])) = [piece] := by
    rw [literals_delimiter (by decide), literals_piece h (by decide)]; rfl
  rw [ofText, hl, List.mapM_cons, List.mapM_nil]
  cases expand piece with
  | error e => rfl
  | ok ws => simp [bind, Except.bind, pure, Except.pure]

/-! ## Literals that hold no delimiter -/

theorem not_isDelimiter_of_isItemChar {c : Char} (h : IsItemChar c) :
    c ≠ ',' → isDelimiter c = false := h.of_all (by decide)

theorem of_mem_literal {s : Scalar} {c : Char} (h : c ∈ s.literal) :
    c = '#' ∨ Text.isHexDigit c = true :=
  (List.mem_cons.mp h).imp_right (Text.isHexDigit_of_mem_padded _ _ c)

theorem isItemChar_of_mem_literal {s : Scalar} {c : Char} (h : c ∈ s.literal) :
    IsItemChar c ∧ c ∉ ['.', '-', ','] := by
  rcases of_mem_literal h with rfl | hd
  · exact ⟨.inr (.inl rfl), by decide⟩
  · exact ⟨.inl hd, Text.of_isHexDigit hd (by decide)⟩

theorem isPiece_literal (s : Scalar) : IsPiece s.literal :=
  ⟨List.cons_ne_nil _ _, fun c hc => by
    obtain ⟨hi, hn⟩ := isItemChar_of_mem_literal hc
    exact not_isDelimiter_of_isItemChar hi fun e => hn (by simp [e])⟩

theorem isItemChar_of_mem_denotesInt {text : Text} {n : ℤ} (h : DenotesInt text n) {c : Char}
    (hc : c ∈ text) : IsItemChar c ∧ c ≠ ',' := by
  rcases h.of_mem hc with rfl | hd
  · exact ⟨.inr (.inr (.inr (.inl rfl))), by decide⟩
  · refine ⟨.inl (by simp [Text.isHexDigit, hd]), ?_⟩
    rintro rfl; revert hd; decide

theorem isPiece_denotesInt {text : Text} {n : ℤ} (h : DenotesInt text n) : IsPiece text :=
  ⟨h.ne_nil, fun _ hc => not_isDelimiter_of_isItemChar (isItemChar_of_mem_denotesInt h hc).1
    (isItemChar_of_mem_denotesInt h hc).2⟩

/-! ## Integers in brackets -/

theorem ofComponents_eq_ok {ws : List Scalar} (h : ws ≠ []) :
    ∃ v, ofComponents ws = .ok v ∧ v.components = ws := by
  obtain ⟨w, rest, rfl⟩ := List.exists_cons_of_ne_nil h
  exact ⟨⟨w, rest⟩, rfl, rfl⟩

variable {text : Text} {n : ℤ}

theorem ofText_of_expand {ws : List Scalar} (h : DenotesInt text n) (hw : expand text = .ok ws)
    (hne : ws ≠ []) :
    ∃ v, ofText ('[' :: (text ++ [']'])) = .ok v ∧ v.toInt = WideLiteral.integer ws := by
  obtain ⟨v, hv, hc⟩ := ofComponents_eq_ok hne
  refine ⟨v, ?_, by rw [toInt, hc]⟩
  rw [ofText_piece (isPiece_denotesInt h), hw]
  exact hv

theorem ofText_wide (h : DenotesInt text n) (hn : n < -2 ^ 31 ∨ 2 ^ 31 ≤ n) :
    ∃ v, ofText ('[' :: (text ++ [']'])) = .ok v ∧ v.toInt = n := by
  have hne : WideLiteral.words n ≠ [] := List.length_pos_iff.mp (WideLiteral.length_words_pos n)
  obtain ⟨v, hv, hi⟩ := ofText_of_expand h (WideLiteral.expand_denotes (.decimal h hn)) hne
  exact ⟨v, hv, hi.trans (WideLiteral.integer_words n)⟩

theorem ofText_whole (h : DenotesInt text n) (hn : -32768 ≤ n ∧ n ≤ 32767) :
    ∃ v, ofText ('[' :: (text ++ [']'])) = .ok v ∧ v.toInt = 65536 * n := by
  obtain ⟨s, hs, hraw⟩ := WideLiteral.expand_whole h hn
  obtain ⟨v, hv, hi⟩ := ofText_of_expand h hs (List.cons_ne_nil s [])
  exact ⟨v, hv, by rw [hi, WideLiteral.integer_singleton, hraw]⟩

theorem ofText_gap (h : DenotesInt text n)
    (hn : -2 ^ 31 ≤ n ∧ n < -32768 ∨ 32767 < n ∧ n < 2 ^ 31) :
    ∃ e, ofText ('[' :: (text ++ [']'])) = .error e := by
  obtain ⟨e, he⟩ := WideLiteral.expand_gap h hn
  rw [ofText_piece (isPiece_denotesInt h), he]
  exact ⟨e, rfl⟩

/-! ## The text of a vector -/

theorem components_ne_nil (v : Vec) : v.components ≠ [] := List.cons_ne_nil _ _

theorem mapM_expand_literal (ws : List Scalar) :
    (ws.map Scalar.literal).mapM expand = .ok (ws.map ([·])) := by
  induction ws with
  | nil => rfl
  | cons w ws ih =>
    rw [List.map_cons, List.mapM_cons, WideLiteral.expand_literal, ih]
    rfl

/-- The literals of the components in brackets, whatever delimiters are between them. -/
theorem ofText_literals {separator : Text} (hne : separator ≠ [])
    (hd : ∀ c ∈ separator, isDelimiter c = true) (v : Vec) :
    ofText ('[' :: (Text.join separator (v.components.map Scalar.literal) ++ [']'])) = .ok v := by
  rw [ofText_join hne hd, mapM_expand_literal]
  · change ofComponents (v.components.map ([·])).flatten = .ok v
    rw [← List.flatMap_def, List.flatMap_singleton']
    rfl
  · intro p hp
    obtain ⟨s, -, rfl⟩ := List.mem_map.mp hp
    exact isPiece_literal s

theorem ofText_render (v : Vec) : ofText v.render = .ok v :=
  ofText_literals (by simp) (List.all_eq_true.mp rfl) v

theorem ofText_ofInt_toInt {v : Vec} (hl : 2 ≤ v.length) (hp : ¬IsPadded v.components) :
    ofText ('[' :: (Text.ofInt v.toInt ++ [']'])) = .ok v := by
  rw [ofText_piece (isPiece_denotesInt (Decimal.denotesInt_ofInt _)), toInt,
    WideLiteral.expand_denotes (WideLiteral.denotes_ofInt_integer hl hp),
    WideLiteral.words_integer (components_ne_nil v) hp]
  rfl

end BinaryPoint.Vec
