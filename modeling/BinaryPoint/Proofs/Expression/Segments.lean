import BinaryPoint.Expression.Token
import BinaryPoint.Proofs.Text.Pieces

/-!
# How an expression is cut

The tokens of a text, from the front: what a character that stands alone does to the text on
its two sides, and which tokens can follow each other.

* `cut_append`: behind any text, a character that stands alone ends the tokens before it and
  those after it start afresh, with the brackets that are still open.
* `segmented_ofText`: operators and dots are single characters, a run is never empty, holds no
  operator, and is not followed by another run.
* `flatMap_text_ofText`: the tokens hold all that is not blank, in order.
-/
namespace BinaryPoint

/-- The text without blanks. -/
def Text.stripped (text : Text) : Text := text.filter fun c => !Text.isBlank c

theorem Text.stripped_append (s t : Text) :
    Text.stripped (s ++ t) = Text.stripped s ++ Text.stripped t := List.filter_append ..

theorem Text.stripped_eq_self {text : Text} (h : ∀ c ∈ text, Text.isBlank c = false) :
    Text.stripped text = text :=
  List.filter_eq_self.mpr fun c hc => by rw [h c hc]; rfl

theorem Text.stripped_join (separator : Text) : ∀ texts : List Text,
    Text.stripped (Text.join separator texts) =
      Text.join (Text.stripped separator) (texts.map Text.stripped)
  | [] => rfl
  | [t] => by rw [Text.join_singleton, List.map_singleton, Text.join_singleton]
  | t :: t' :: texts => by
    have hl := Text.join_cons separator t (List.cons_ne_nil t' texts)
    have hr := Text.join_cons (Text.stripped separator) (Text.stripped t)
      (List.cons_ne_nil (Text.stripped t') (texts.map Text.stripped))
    rw [hl, Text.stripped_append, Text.stripped_append, Text.stripped_join separator (t' :: texts)]
    exact hr.symm

/-- The text is the pieces in order, with any blanks before, between and after them. -/
inductive Text.Spaced : List Text → Text → Prop where
  | nil : Spaced [] []
  | blank {c : Char} {pieces : List Text} {text : Text} (h : Text.isBlank c = true)
    (rest : Spaced pieces text) : Spaced pieces (c :: text)
  | piece (p : Text) {pieces : List Text} {text : Text} (rest : Spaced pieces text) :
    Spaced (p :: pieces) (p ++ text)

theorem Text.Spaced.stripped_eq {pieces : List Text} {text : Text} (h : Text.Spaced pieces text) :
    Text.stripped text = pieces.flatMap Text.stripped := by
  induction h with
  | nil => rfl
  | blank hb _ ih => rw [← ih, Text.stripped, List.filter_cons_of_neg (by simp [hb])]; rfl
  | piece p _ ih => rw [Text.stripped_append, ih, List.flatMap_cons]

namespace Token

theorem ofText_eq (text : Text) : ofText text = cut 0 [] [] (Text.stripped text) := rfl

/-! ## One character -/

/-- A character that an operator or a parenthesis can consist of. -/
def IsOperator (c : Char) : Prop := c ∈ operators ∨ c = '-'

theorem standsAlone_operator {c : Char} (h : c ∈ operators) (depth : Nat) (next : Option Char) :
    standsAlone depth c next = some .operator := by
  simp [standsAlone, h]

theorem standsAlone_eq_some {depth : Nat} {c : Char} {next : Option Char} {kind : Kind}
    (h : standsAlone depth c next = some kind) :
    kind = .operator ∧ IsOperator c ∨ kind = .dot ∧ c = '.' := by
  unfold standsAlone at h
  split at h
  · rename_i hc; cases h; exact .inl ⟨rfl, .inl (by simpa using hc)⟩
  · split at h
    · rename_i hm
      split at h <;> cases h
      exact .inl ⟨rfl, .inr hm⟩
    · split at h
      · rename_i hd
        split at h <;> cases h
        exact .inr ⟨rfl, hd⟩
      · cases h

theorem not_mem_operators {depth : Nat} {c : Char} {next : Option Char}
    (h : standsAlone depth c next = none) : c ∉ operators := by
  intro hc; rw [standsAlone_operator hc] at h; cases h

theorem ne_bracket_of_standsAlone {depth : Nat} {c : Char} {next : Option Char} {kind : Kind}
    (h : standsAlone depth c next = some kind) : c ≠ '[' ∧ c ≠ ']' := by
  have hc : c = '.' ∨ c = '-' ∨ c ∈ operators := by
    rcases standsAlone_eq_some h with ⟨_, hc | hc⟩ | ⟨_, hc⟩
    · exact .inr (.inr hc)
    · exact .inr (.inl hc)
    · exact .inl hc
  constructor <;> rintro rfl <;> revert hc <;> decide

theorem depthAfter_of_ne {c : Char} (h : c ≠ '[' ∧ c ≠ ']') (depth : Nat) :
    depthAfter depth c = depth := by
  rw [depthAfter, if_neg h.1, if_neg h.2]

theorem foldl_depthAfter_of_ne : ∀ {text : Text}, (∀ c ∈ text, c ≠ '[' ∧ c ≠ ']') → ∀ depth : Nat,
    text.foldl depthAfter depth = depth
  | [], _, _ => rfl
  | c :: text, h, depth => by
    rw [List.foldl_cons, depthAfter_of_ne (h c List.mem_cons_self)]
    exact foldl_depthAfter_of_ne (fun d hd => h d (List.mem_cons_of_mem _ hd)) depth

/-- A bracket group closes what it opens. -/
theorem foldl_depthAfter_brackets {inner : Text} (h : ∀ c ∈ inner, c ≠ '[' ∧ c ≠ ']')
    (depth : Nat) : ('[' :: (inner ++ [']'])).foldl depthAfter depth = depth := by
  rw [List.foldl_cons, List.foldl_append]
  change List.foldl depthAfter (inner.foldl depthAfter (depth + 1)) [']'] = depth
  rw [foldl_depthAfter_of_ne h]; rfl

/-- A point looks at the next character only for a digit or a mark of hex digits. -/
theorem standsAlone_head {c : Char} (hc : (Text.isDigit c || c = '#') = false) (depth : Nat)
    (d : Char) (s text : Text) :
    standsAlone depth d (s ++ c :: text).head? = standsAlone depth d s.head? := by
  cases s with
  | cons => rfl
  | nil =>
    simp only [List.nil_append, List.head?_cons, standsAlone, Option.any_some, List.head?_nil,
      Option.any_none, hc]
    rfl

/-- Neither of these stands alone. -/
theorem standsAlone_append {c : Char} {next : Option Char} {depth' : Nat} {kind : Kind}
    (h : standsAlone depth' c next = some kind) (depth : Nat) (d : Char) (s text : Text) :
    standsAlone depth d (s ++ c :: text).head? = standsAlone depth d s.head? := by
  refine standsAlone_head ?_ depth d s text
  rcases standsAlone_eq_some h with ⟨_, hc | rfl⟩ | ⟨_, rfl⟩
  · simp only [operators, List.mem_cons, List.not_mem_nil, or_false] at hc
    rcases hc with rfl | rfl | rfl | rfl | rfl | rfl <;> decide
  · decide
  · decide

/-! ## Cutting -/

theorem closeRun_append (run : Text) (done : List Token) :
    closeRun run done = closeRun run [] ++ done := by
  unfold closeRun; split <;> rfl

theorem reverse_closeRun (run : Text) : (closeRun run []).reverse = closeRun run [] := by
  unfold closeRun; split <;> rfl

theorem cut_done (text : Text) : ∀ (depth : Nat) (run : Text) (done : List Token),
    cut depth run done text = done.reverse ++ cut depth run [] text := by
  induction text with
  | nil => intro depth run done; simp [cut, closeRun_append run done]
  | cons c rest ih =>
    intro depth run done
    rw [cut, cut]
    split
    · rename_i kind _
      rw [ih _ _ (⟨kind, [c]⟩ :: closeRun run done), ih _ _ (⟨kind, [c]⟩ :: closeRun run [])]
      simp [closeRun_append run done]
    · exact ih _ _ _

theorem cut_cons_alone {depth : Nat} {c : Char} {rest : Text} {kind : Kind}
    (h : standsAlone depth c rest.head? = some kind) (run : Text) :
    cut depth run [] (c :: rest) = closeRun run [] ++ ⟨kind, [c]⟩ :: cut depth [] [] rest := by
  rw [cut, h]
  simp only [cut_done rest depth [] (_ :: _), List.reverse_cons, reverse_closeRun,
    List.append_assoc, List.singleton_append]

theorem cut_cons_run {depth : Nat} {c : Char} {rest : Text}
    (h : standsAlone depth c rest.head? = none) (run : Text) :
    cut depth run [] (c :: rest) = cut (depthAfter depth c) (c :: run) [] rest := by
  rw [cut, h]

/-- Behind `s`, a character that stands alone separates the tokens of what surrounds it. -/
theorem cut_append (s : Text) : ∀ {depth : Nat} {c : Char} {rest : Text} {kind : Kind},
    standsAlone (s.foldl depthAfter depth) c rest.head? = some kind → ∀ run : Text,
    cut depth run [] (s ++ c :: rest) =
      cut depth run [] s ++ ⟨kind, [c]⟩ :: cut (s.foldl depthAfter depth) [] [] rest := by
  induction s with
  | nil =>
    intro depth c rest kind h run
    rw [List.foldl_nil] at h ⊢
    rw [List.nil_append, cut_cons_alone h, cut, reverse_closeRun]
  | cons d s ih =>
    intro depth c rest kind h run
    rw [List.foldl_cons] at h ⊢
    -- what follows `s` changes nothing for the characters of `s`, the last one included
    have hd := standsAlone_append h depth d s rest
    cases ha : standsAlone depth d s.head? with
    | some alone =>
      rw [depthAfter_of_ne (ne_bracket_of_standsAlone ha)] at h ⊢
      rw [List.cons_append, cut_cons_alone (hd.trans ha), cut_cons_alone ha, ih h,
        List.append_assoc, List.cons_append]
    | none => rw [List.cons_append, cut_cons_run (hd.trans ha), cut_cons_run ha, ih h]

/-! ## The tokens of a text -/

/-- Tokens in an order and of a form that texts are cut into. -/
inductive Segmented : List Token → Prop where
  | nil : Segmented []
  | operator {c : Char} {rest : List Token} (h : IsOperator c) (hs : Segmented rest) :
    Segmented (⟨.operator, [c]⟩ :: rest)
  | dot {rest : List Token} (hs : Segmented rest) : Segmented (⟨.dot, ['.']⟩ :: rest)
  | run {text : Text} {rest : List Token} (hn : text ≠ []) (hc : ∀ c ∈ text, c ∉ operators)
    (hr : ∀ t ∈ rest.head?, t.kind ≠ .run) (hs : Segmented rest) :
    Segmented (⟨.run, text⟩ :: rest)

theorem Segmented.tail {t : Token} {rest : List Token} (h : Segmented (t :: rest)) :
    Segmented rest := by
  cases h <;> assumption

theorem Segmented.ne_nil {tokens : List Token} (h : Segmented tokens) :
    ∀ t ∈ tokens, t.text ≠ [] := by
  induction h with
  | nil => exact List.forall_mem_nil _
  | operator _ _ ih => exact List.forall_mem_cons.mpr ⟨List.cons_ne_nil _ _, ih⟩
  | dot _ ih => exact List.forall_mem_cons.mpr ⟨List.cons_ne_nil _ _, ih⟩
  | run hn _ _ _ ih => exact List.forall_mem_cons.mpr ⟨hn, ih⟩

theorem segmented_closeRun {run : Text} (hc : ∀ c ∈ run, c ∉ operators) {rest : List Token}
    (hr : ∀ t ∈ rest.head?, t.kind ≠ .run) (hs : Segmented rest) :
    Segmented (closeRun run [] ++ rest) := by
  unfold closeRun
  split
  · exact hs
  · rename_i he
    refine .run ?_ (fun c h => hc c (List.mem_reverse.mp h)) hr hs
    simpa using he

theorem segmented_cut (text : Text) : ∀ (depth : Nat) {run : Text}, (∀ c ∈ run, c ∉ operators) →
    Segmented (cut depth run [] text) := by
  induction text with
  | nil =>
    intro depth run hc
    rw [cut, reverse_closeRun]
    have hs : Segmented (closeRun run [] ++ []) := segmented_closeRun hc (fun _ h => nomatch h) .nil
    rwa [List.append_nil] at hs
  | cons c rest ih =>
    intro depth run hc
    cases ha : standsAlone depth c rest.head? with
    | none =>
      rw [cut_cons_run ha]
      refine ih _ fun d hd => ?_
      rcases List.mem_cons.mp hd with rfl | hd
      · exact not_mem_operators ha
      · exact hc d hd
    | some kind =>
      rw [cut_cons_alone ha]
      have hs : Segmented (cut depth [] [] rest) := ih depth fun _ h => nomatch h
      rcases standsAlone_eq_some ha with ⟨rfl, ho⟩ | ⟨rfl, rfl⟩
      · exact segmented_closeRun hc (by rintro t ⟨⟩; nofun) (.operator ho hs)
      · exact segmented_closeRun hc (by rintro t ⟨⟩; nofun) (.dot hs)

theorem segmented_ofText (text : Text) : Segmented (ofText text) :=
  segmented_cut _ 0 fun _ h => nomatch h

theorem flatMap_text_closeRun (run : Text) : (closeRun run []).flatMap Token.text = run.reverse := by
  unfold closeRun
  split
  · rename_i h; rw [List.isEmpty_iff.mp h]; rfl
  · simp

theorem flatMap_text_cut (text : Text) : ∀ (depth : Nat) (run : Text),
    (cut depth run [] text).flatMap Token.text = run.reverse ++ text := by
  induction text with
  | nil =>
    intro depth run
    rw [cut, reverse_closeRun, flatMap_text_closeRun, List.append_nil]
  | cons c rest ih =>
    intro depth run
    cases ha : standsAlone depth c rest.head? with
    | none => rw [cut_cons_run ha, ih, List.reverse_cons, List.append_assoc, List.singleton_append]
    | some kind =>
      rw [cut_cons_alone ha, List.flatMap_append, flatMap_text_closeRun, List.flatMap_cons, ih]
      rfl

theorem flatMap_text_ofText (text : Text) : (ofText text).flatMap Token.text = Text.stripped text := by
  rw [ofText_eq, flatMap_text_cut, List.reverse_nil, List.nil_append]

end Token

end BinaryPoint
