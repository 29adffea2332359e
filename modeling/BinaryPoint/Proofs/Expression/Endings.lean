import BinaryPoint.Proofs.Expression.Leaves
import BinaryPoint.Proofs.Expression.Quotes

/-!
# What expressions end with

A derivation ends with a closing parenthesis, that of a group or of a call. So the last token of
an expression that has a value is a closing parenthesis or a literal, which becomes a call.

* `Lexeme.Spells.endsLike`: a spelling ends as its last lexeme does, or with a blank.
* `Lexeme.Spells.append_of_closes`: and if that closes a parenthesis, no name runs on behind it.
* `closes_of_evaluate`: the last token.
-/
namespace BinaryPoint

/-! ## The last character of a spelling -/

namespace Lexeme

/-- The text ends with a blank, or as the last of the lexemes does. -/
def EndsLike (lexemes : List Lexeme) (text : Text) : Prop :=
  ∀ c ∈ text.getLast?, Text.isBlank c = true ∨ ∃ l ∈ lexemes.getLast?, l.text.getLast? = some c

theorem EndsLike.cons {lexemes : List Lexeme} {text : Text} (h : EndsLike lexemes text)
    (hn : text = [] → lexemes = []) (l : Lexeme) : EndsLike (l :: lexemes) (l.text ++ text) := by
  intro c hc
  rw [List.getLast?_append] at hc
  cases ht : text.getLast? with
  | none =>
    rw [ht] at hc
    refine .inr ⟨l, ?_, hc⟩
    rw [hn (List.getLast?_eq_none_iff.mp ht)]; rfl
  | some d =>
    rw [ht] at hc
    refine (h c (by rw [ht]; exact hc)).imp_right fun ⟨last, hl, he⟩ => ⟨last, ?_, he⟩
    rw [List.getLast?_cons, Option.mem_def.mp hl]; rfl

theorem Spells.eq_nil {lexemes : List Lexeme} {text : Text} (h : Spells lexemes text)
    (ht : text = []) : lexemes = [] := by
  cases h <;> first | rfl | cases ht

theorem Spells.endsLike {lexemes : List Lexeme} {text : Text} (h : Spells lexemes text) :
    EndsLike lexemes text := by
  induction h with
  | nil => nofun
  | @blank c lexemes text hb _ ih =>
    intro d hd
    rw [List.getLast?_cons] at hd
    cases ht : text.getLast? with
    | none => rw [ht] at hd; cases hd; exact .inl hb
    | some e => rw [ht] at hd; cases hd; exact ih _ ht
  | mark m hs ih => exact ih.cons hs.eq_nil (.mark m)
  | @quoted inner lexemes text _ hs ih =>
    have he := ih.cons hs.eq_nil (.quoted inner)
    simpa [Lexeme.text] using he
  | name _ _ _ hs ih => exact ih.cons hs.eq_nil (.name _)

/-- Behind a closing parenthesis no name runs on. -/
theorem Spells.append_of_closes {lexemes lexemes' : List Lexeme} {text text' : Text}
    (h : Spells lexemes text) (hl : ∀ l ∈ lexemes.getLast?, l = .mark .closeParen)
    (h' : Spells lexemes' text') : Spells (lexemes ++ lexemes') (text ++ text') := by
  have hlast {l : Lexeme} {lexemes : List Lexeme}
      (h : ∀ last ∈ (l :: lexemes).getLast?, last = .mark .closeParen) :
      ∀ last ∈ lexemes.getLast?, last = .mark .closeParen := fun last hm => h last (by
    rw [List.getLast?_cons, Option.mem_def.mp hm]; rfl)
  induction h with
  | nil => exact h'
  | blank hb _ ih => exact .blank hb (ih hl)
  | mark m _ ih => exact .mark m (ih (hlast hl))
  | quoted hq _ ih =>
    rw [List.cons_append, List.cons_append, List.append_assoc]
    exact .quoted hq (ih (hlast hl))
  | @name c more lexemes text hc hm he hs ih =>
    have ht : text ≠ [] := fun e => by
      rw [hs.eq_nil e] at hl
      cases hl _ rfl
    obtain ⟨d, rest, rfl⟩ := List.exists_cons_of_ne_nil ht
    rw [List.cons_append, List.cons_append, List.append_assoc]
    exact .name hc hm (fun e hd => he e hd) (ih (hlast hl))

end Lexeme

/-! ## The last token -/

open Token (Segmented)

/-- The last token makes a piece of its own, unless it is a decimal with its sign. -/
theorem Prepared.collect_last {last : Token} (h : isDecimal last = false) :
    ∀ (tokens : List Token) (before : Option Token),
      collect before [] (tokens ++ [last]) = collect before [] tokens ++ [piece last]
  | [], _ => rfl
  | [token], before => by
    rw [List.singleton_append, collect_cons (not_folds_cons h before token []),
      collect_cons (not_folds_nil before token)]
    rfl
  | token :: next :: rest, before => by
    by_cases hf : Folds before token (next :: rest)
    · obtain ⟨hs, _, ⟨⟩, hd⟩ := hf
      rw [List.cons_append, List.cons_append, collect_fold hs hd, collect_fold hs hd,
        collect_last h rest (some next)]
      rfl
    · have hf' : ¬Folds before token (next :: rest ++ [last]) := hf
      rw [List.cons_append, collect_cons hf', collect_cons hf, collect_last h (next :: rest) (some token)]
      rfl

theorem Token.Segmented.last {last : Token} : ∀ {tokens : List Token},
    Segmented (tokens ++ [last]) → Segmented [last]
  | [], h => h
  | _ :: _, h => h.tail.last

/-- The last token is a literal, or the closing parenthesis that the derivation ends with. -/
theorem closes_of_evaluate {text : Text} {q : Quantity} (h : evaluate text = .ok q)
    {tokens : List Token} {last : Token} (ht : Token.ofText text = tokens ++ [last]) :
    (last.kind = .run ∧ Literal.classify last.text ≠ .other) ∨ last = Token.closeParen := by
  obtain ⟨e, -, hs, -⟩ := spells_of_evaluatePrepared h
  have hseg : Segmented [last] := by
    have hseg := Token.segmented_ofText text
    rw [ht] at hseg
    exact hseg.last
  have closes (hd : Prepared.isDecimal last = false) : ∀ c ∈ (Prepared.piece last).getLast?,
      Text.isBlank c = true ∨ c = ')' := by
    intro c hc
    have hp : prepare text = (Prepared.collect none [] tokens).flatten ++ Prepared.piece last := by
      rw [prepare, ht, Prepared.ofTokens, Prepared.pieces, Prepared.collect_last hd]; simp
    rw [hp] at hs
    refine (hs.endsLike c (by rw [List.getLast?_append, Option.mem_def.mp hc]; rfl)).imp_right ?_
    rintro ⟨l, hl, he⟩
    rw [e.getLast?_leaves] at hl
    cases hl; cases he; rfl
  cases hseg with
  | @operator c _ ho =>
    simp only [Token.IsOperator, Token.operators, List.mem_cons, List.not_mem_nil, or_false] at ho
    rcases ho with (rfl | rfl | rfl | rfl | rfl | rfl) | rfl
    · exact absurd (closes rfl '+' rfl) (by decide)
    · exact absurd (closes rfl '*' rfl) (by decide)
    · exact absurd (closes rfl '*' rfl) (by decide)
    · exact absurd (closes rfl '/' rfl) (by decide)
    · exact absurd (closes rfl '(' rfl) (by decide)
    · exact .inr rfl
    · exact absurd (closes rfl '-' rfl) (by decide)
  | dot => exact absurd (closes rfl '.' rfl) (by decide)
  | @run run _ hn hc =>
    refine .inl ⟨rfl, fun ho => ?_⟩
    have hp : Prepared.piece ⟨.run, run⟩ = run := by simp [Prepared.piece, ho]
    have hd : Prepared.isDecimal ⟨.run, run⟩ = false := by
      simpa [Prepared.isDecimal] using Literal.isDecimal_of_other ho
    have hlast : run.getLast? = some (run.getLast hn) := List.getLast?_eq_some_getLast hn
    have hm : run.getLast hn ∈ Text.stripped text := by
      rw [← Token.flatMap_text_ofText, ht, List.flatMap_append, List.flatMap_singleton]
      exact List.mem_append_right _ (List.getLast_mem hn)
    rcases closes hd _ (by rw [hp]; exact hlast) with hb | hb
    · have hnb := (List.mem_filter.mp hm).2
      rw [hb] at hnb; cases hnb
    · exact hc _ (List.getLast_mem hn) (by rw [hb]; decide)

end BinaryPoint
