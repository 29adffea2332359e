import BinaryPoint.Proofs.Expression.DepthLimit
import BinaryPoint.Proofs.Expression.Groups
import BinaryPoint.Proofs.Expression.Nesting
import BinaryPoint.Proofs.Expression.Quotations

/-!
# Parentheses around an expression

An expression that has a value keeps it in any number of parentheses, up to the limit of nesting.
Cutting and preparing leave the parentheses where they are and do with the text between them what
they do with it by itself, and each pair adds one level to the derivation. So what counts is the
number of pairs and the greatest number of parentheses that are open at once in the prepared text,
which holds no blanks, and in whose strings there are no parentheses.

* `prepare_wrapped`: the prepared text of an expression in parentheses.
* `openAtOnce_prepare`: the parentheses of prepared text tell the nesting of its derivation.
* `evaluate_wrapped`: the value, or the refusal, of an expression in parentheses.
-/
namespace BinaryPoint

open BinaryPoint.Derivation
open Lexeme (Spells)

/-! ## Characters of prepared text -/

namespace Prepared

/-- No character of the text is a blank. -/
def Solid (text : Text) : Prop := ∀ c ∈ text, Text.isBlank c = false

theorem solid_append {s t : Text} (hs : Solid s) (ht : Solid t) : Solid (s ++ t) := fun c hc =>
  (List.mem_append.mp hc).elim (hs c) (ht c)

theorem solid_of_all {text : Text} (h : text.all (fun c => !Text.isBlank c) = true) :
    Solid text := fun c hc => by simpa using List.all_eq_true.mp h c hc

theorem solid_construct {name literal : Text} (hn : Solid name) (hl : Solid literal) :
    Solid (construct name literal) :=
  solid_append (solid_append (solid_append hn (solid_of_all (by decide))) hl)
    (solid_of_all (by decide))

theorem solid_scalarConstructor : Solid scalarConstructor := solid_of_all (by decide +kernel)

theorem solid_vectorConstructor : Solid vectorConstructor := solid_of_all (by decide +kernel)

theorem solid_group {inner : Text} (h : Solid inner) : Solid (group inner) := by
  have hb : Solid (['['] ++ inner ++ [']']) :=
    solid_append (solid_append (solid_of_all (by decide)) h) (solid_of_all (by decide))
  unfold group
  dsimp only
  split
  · exact solid_construct solid_vectorConstructor hb
  · exact h

theorem solid_vector {literal : Text} (h : Literal.isVector literal = true) :
    Solid (vector literal) := by
  obtain ⟨interior, hi⟩ := Literal.exists_interior h
  intro c hc
  unfold vector at hc
  dsimp only at hc
  rw [hi, Option.getD_some] at hc
  rcases Text.of_mem_join hc with hc | ⟨text, ht, hc⟩
  · rw [List.mem_singleton.mp hc]; decide
  · obtain ⟨g, hg, rfl⟩ := List.mem_map.mp ht
    have hitems := Literal.isItemChar_of_isVector h hi g (List.mem_filter.mp hg).1
    exact solid_group (fun d hd => Literal.isBlank_of_isItemChar (hitems d hd)) c hc

theorem solid_piece {token : Token} (h : Solid token.text) : Solid (piece token) := by
  unfold piece
  split
  · split
    · exact solid_of_all (by decide)
    · exact h
  · exact h
  · split
    · exact solid_construct solid_scalarConstructor h
    · exact solid_construct solid_scalarConstructor h
    · rename_i hc; exact solid_vector (Literal.isVector_of_classify hc)
    · exact h

theorem solid_collect : ∀ (tokens : List Token) (before : Option Token),
    (∀ t ∈ tokens, Solid t.text) → Solid (collect before [] tokens).flatten
  | [], _, _ => nofun
  | token :: rest, before, h => by
    by_cases hf : Folds before token rest
    · obtain ⟨next, tail, rfl, hs, hd⟩ := hf.eq_cons
      have hnext : Solid ('-' :: next.text) :=
        solid_append (s := ['-']) (solid_of_all (by decide)) (h next (by simp))
      rw [collect_fold hs hd, List.flatten_cons]
      exact solid_append (solid_construct solid_scalarConstructor hnext)
        (solid_collect tail _ fun t ht => h t (by simp [ht]))
    · rw [collect_cons hf, List.flatten_cons]
      exact solid_append (solid_piece (h token List.mem_cons_self))
        (solid_collect rest _ fun t ht => h t (List.mem_cons_of_mem _ ht))

theorem solid_prepare (text : Text) : Solid (prepare text) := by
  refine solid_collect _ none fun t ht c hc => ?_
  have hm : c ∈ Text.stripped text := by
    rw [← Token.flatMap_text_ofText]
    exact List.mem_flatMap.mpr ⟨t, ht, hc⟩
  simpa using (List.mem_filter.mp hm).2

end Prepared

/-- The characters of a literal are those of items, and brackets. -/
theorem parenthesis_not_mem_of_isLiteralOf {tokens : List Token} {s : Text}
    (h : IsLiteralOf tokens s) : '(' ∉ s ∧ ')' ∉ s := by
  have items : ∀ text : Text, (∀ c ∈ text, Literal.IsItemChar c) → '(' ∉ text ∧ ')' ∉ text := by
    intro text ht
    have hnot : ∀ c, Literal.IsItemChar c → c ∉ ['(', ')'] := fun c hc => hc.of_all (by decide)
    exact ⟨fun hm => hnot _ (ht _ hm) (by simp), fun hm => hnot _ (ht _ hm) (by simp)⟩
  cases h with
  | hex _ hc => exact items _ (Literal.isItemChar_of_isHex (Literal.isHex_of_classify hc))
  | decimal _ hc =>
    exact items _ (Literal.isItemChar_of_isDecimal (Literal.isDecimal_of_classify hc))
  | negated _ hd => simpa using items _ (Literal.isItemChar_of_isDecimal hd)
  | group _ hc hg _ =>
    have hv := Literal.isVector_of_classify hc
    obtain ⟨interior, hi⟩ := Literal.exists_interior hv
    rw [hi, Option.getD_some] at hg
    simpa using items _ (Literal.isItemChar_of_isVector hv hi _ hg)

/-- The parentheses of prepared text tell the nesting of its derivation. -/
theorem openAtOnce_prepare {text : Text} {q : Quantity} (h : evaluate text = .ok q)
    {e : Expression} (hs : Spells e.leaves (prepare text)) (hd : e.denote = .ok q) :
    Text.openAtOnce (prepare text) = e.nesting := by
  have hstrings : ∀ s, .quoted s ∈ e.leaves → '(' ∉ s ∧ ')' ∉ s := fun s hm =>
    parenthesis_not_mem_of_isLiteralOf (isLiteralOf_of_mem_strings _ none
      (fun t ht => (sound_of_evaluate h t ht).2) s (mem_strings_of_spells hs s hm))
  rw [Text.openAtOnce, Delimiter.maxOpen_of_spells hs (Prepared.solid_prepare text) hstrings,
    Expression.maxOpen_leaves hd]

/-! ## Parentheses around a text -/

/-- The text in `k` pairs of parentheses. -/
def Text.wrapped (k : Nat) (text : Text) : Text :=
  List.replicate k '(' ++ text ++ List.replicate k ')'

namespace Text

theorem wrapped_zero (text : Text) : wrapped 0 text = text := List.append_nil text

theorem wrapped_succ (k : Nat) (text : Text) :
    wrapped (k + 1) text = '(' :: (wrapped k text ++ [')']) := by
  rw [wrapped, wrapped, List.replicate_succ, List.replicate_succ']
  simp

theorem stripped_wrapped_succ (k : Nat) (text : Text) :
    stripped (wrapped (k + 1) text) = '(' :: (stripped (wrapped k text) ++ [')']) := by
  rw [wrapped_succ, ← List.singleton_append, stripped_append, stripped_append]
  rfl

theorem foldl_depthAfter_wrapped {text : Text} (h : (stripped text).foldl Token.depthAfter 0 = 0)
    (k : Nat) : (stripped (wrapped k text)).foldl Token.depthAfter 0 = 0 := by
  induction k with
  | zero => rw [wrapped_zero]; exact h
  | succ k ih => rw [stripped_wrapped_succ, List.foldl_cons, List.foldl_append]; exact ih

end Text

theorem prepare_wrapped {text : Text}
    (h : (Text.stripped text).foldl Token.depthAfter 0 = 0) (k : Nat) :
    prepare (Text.wrapped k text) = Text.wrapped k (prepare text) := by
  induction k with
  | zero => rw [Text.wrapped_zero, Text.wrapped_zero]
  | succ k ih =>
    rw [prepare_eq, Text.stripped_wrapped_succ, Text.wrapped_succ, ← ih]
    exact prepare_closing_group (Text.foldl_depthAfter_wrapped h k) none []

/-- Each pair of parentheses is one level around the derivation. -/
theorem exists_wrapped {e : Expression} {q : Quantity} (hd : e.denote = .ok q) {text : Text}
    (hs : Spells e.leaves text) (k : Nat) : ∃ e' : Expression,
      e'.nesting = k + e.nesting ∧ Spells e'.leaves (Text.wrapped k text) ∧ e'.denote = .ok q := by
  induction k with
  | zero => exact ⟨e, by omega, by rwa [Text.wrapped_zero], hd⟩
  | succ k ih =>
    obtain ⟨e', hn, hs', hd'⟩ := ih
    refine ⟨Expression.single (Factor.ofGroup e'), ?_, ?_, ?_⟩
    · rw [Expression.nesting_single, Factor.nesting_ofGroup]
      omega
    · have hg := spells_group hs' .nil
      rwa [List.append_nil, ← Text.wrapped_succ, ← Expression.leaves_single] at hg
    · rw [Expression.denote_single, Factor.denote_ofGroup hd']

/-- **The limit of nesting.** Let `D` be the greatest number of parentheses that are open at once
in the prepared text of an expression that has a value, not counting those of empty lists of
arguments and of generated calls. Then `D` is within the limit, and in `k` pairs of parentheses the
expression has the same value as long as `k + D` is within the limit, and is refused for its depth
otherwise. -/
theorem evaluate_wrapped {text : Text} {q : Quantity} (h : evaluate text = .ok q) :
    Text.openAtOnce (prepare text) ≤ 128 ∧
      ∀ k, evaluate (List.replicate k '(' ++ text ++ List.replicate k ')') =
        if k + Text.openAtOnce (prepare text) ≤ 128 then .ok q else .error (.tooDeep 128) := by
  obtain ⟨e, hn, hs, hd⟩ := spells_of_evaluatePrepared h
  have hopen := openAtOnce_prepare h hs hd
  refine ⟨by rw [hopen]; exact hn, fun k => ?_⟩
  obtain ⟨e', hn', hs', hd'⟩ := exists_wrapped hd hs k
  rw [← prepare_wrapped (foldl_depthAfter_of_evaluate h 0) k] at hs'
  have heval := evaluatePrepared_of_denote hd' hs'
  rw [hn'] at heval
  rw [hopen]
  exact heval

/-- A call, a group among its arguments and a group in that; generated calls and an empty list of
arguments do not count. -/
theorem evaluate_wrapped_three_levels :
    let text : Text := "[1].Add((2 - (3))).Len()".toList
    evaluate text = .ok (.scalar .one) ∧ Text.openAtOnce (prepare text) = 3 ∧
      (∀ k, evaluate (List.replicate k '(' ++ text ++ List.replicate k ')') =
        if k + Text.openAtOnce (prepare text) ≤ 128 then .ok (.scalar .one)
        else .error (.tooDeep 128)) := by
  intro text
  have hv : evaluate text = .ok (.scalar .one) := by decide +kernel
  exact ⟨hv, by decide +kernel, (evaluate_wrapped hv).2⟩

end BinaryPoint
