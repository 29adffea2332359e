import BinaryPoint.Proofs.Expression.Seams
import BinaryPoint.Proofs.Expression.SignedLiterals

/-!
# Signs behind a comma

A minus in front of a decimal is folded into it at the start of a text, but not behind a comma,
which is in a run. There it negates its operand once the methods are called, as it does in front
of parentheses: the argument has the value that it has with parentheses around the decimal.

* `signApart`: a text with these parentheses.
* `Expression.eq_of_leaves_constructed`: a derivation that begins with the call of a constructor.
* `Valued.exists_expression_behind`: the derivation of a valued expression behind a comma.
-/
namespace BinaryPoint

open BinaryPoint.Derivation
open Lexeme (Spells)
open Prepared (Folds construct scalarConstructor)
open Token (cut depthAfter)

/-- The text with parentheses around the decimal behind a minus that it begins with. -/
def signApart (text : Text) : Text :=
  match Token.ofText text with
  | sign :: number :: rest =>
    if Prepared.isSign none sign && Prepared.isDecimal number then
      sign.text ++ '(' :: (number.text ++ ')' :: rest.flatMap Token.text)
    else text
  | _ => text

/-! ## Texts behind a comma -/

/-- What is behind the first token is cut as a text by itself. -/
theorem Token.exists_of_cut_eq_cons : ∀ (text : Text) (depth : ℕ) {run : Text} {token : Token}
    {rest : List Token}, cut depth run [] text = token :: rest → ∃ before after : Text,
      text = before ++ after ∧ token.text = run.reverse ++ before ∧
        rest = cut (before.foldl depthAfter depth) [] [] after
  | [], depth, run, token, rest, h => by
    by_cases hn : run = []
    · rw [hn] at h; cases h
    · rw [cut, reverse_closeRun, closeRun_of_ne_nil hn] at h
      cases h
      exact ⟨[], [], rfl, (List.append_nil _).symm, rfl⟩
  | c :: text, depth, run, token, rest, h => by
    cases hc : standsAlone depth c text.head? with
    | none =>
      rw [cut_cons_run hc] at h
      obtain ⟨before, after, rfl, ht, hr⟩ := exists_of_cut_eq_cons text _ h
      exact ⟨c :: before, after, rfl, by rw [ht]; simp, hr⟩
    | some kind =>
      rw [cut_cons_alone hc] at h
      by_cases hn : run = []
      · rw [hn] at h ⊢
        cases h
        refine ⟨[c], text, rfl, rfl, ?_⟩
        rw [List.foldl_cons, List.foldl_nil, depthAfter_of_ne (ne_bracket_of_standsAlone hc)]
      · rw [closeRun_of_ne_nil hn] at h
        cases h
        exact ⟨[], c :: text, rfl, (List.append_nil _).symm, (cut_cons_alone hc []).symm⟩

/-- Behind a comma a text is prepared as by itself, but for a sign in front of a decimal. -/
theorem preparedBehind_comma {text : Text} (h : ∀ t rest, cut 0 [] [] text = t :: rest →
    ¬Folds none t rest) : preparedBehind (some Token.comma) text = preparedBehind none text := by
  rw [preparedBehind, preparedBehind]
  cases hc : cut 0 [] [] text with
  | nil => rfl
  | cons t rest =>
    have hs : Prepared.isSign (some Token.comma) t = false := Prepared.isSign_run _ t
    rw [Prepared.collect_cons (h t rest hc),
      Prepared.collect_cons (Prepared.not_folds_of_isSign hs rest)]

theorem not_folds_of_unsigned {text : Text}
    (h : ∀ d rest, text = '-' :: d :: rest → Text.isDigit d = false) {t : Token} {rest : List Token}
    (ht : cut 0 [] [] text = t :: rest) : ¬Folds none t rest := by
  intro hf
  obtain ⟨next, tail, rfl, hs, hd⟩ := hf.eq_cons
  have hc := Token.flatMap_text_cut text 0 []
  rw [ht] at hc
  simp only [Prepared.isSign, Prepared.isDecimal, Bool.and_eq_true, decide_eq_true_eq] at hs hd
  obtain ⟨d, more, hn, hdigit⟩ := Literal.exists_digit_of_isDecimal hd.2
  simp only [List.flatMap_cons, hs.1.2, hn, List.reverse_nil, List.nil_append, List.cons_append] at hc
  rw [h d _ hc.symm] at hdigit
  cases hdigit

theorem signApart_of_not_folds {text : Text}
    (h : ∀ t rest, Token.ofText text = t :: rest → ¬Folds none t rest) : signApart text = text := by
  unfold signApart
  split
  · rename_i sign number rest ht
    refine if_neg fun hf => h sign _ ht ?_
    rw [Bool.and_eq_true] at hf
    exact ⟨hf.1, number, rfl, hf.2⟩
  · rfl

/-! ## Texts with a sign -/

/-- Without its blanks the text begins with a minus and a decimal that are tokens. -/
structure BeginsSigned (text d after : Text) : Prop where
  decimal : Literal.isDecimal d = true
  stripped : Text.stripped text = '-' :: (d ++ after)
  cut : cut 0 [] [] (d ++ after) = ⟨.run, d⟩ :: cut 0 [] [] after

theorem exists_beginsSigned {text : Text} {t : Token} {rest : List Token}
    (ht : Token.ofText text = t :: rest) (hf : Folds none t rest) :
    ∃ d after, BeginsSigned text d after := by
  obtain ⟨number, more, rfl, hs, hd⟩ := hf.eq_cons
  obtain ⟨kind, d⟩ := number
  simp only [Prepared.isSign, Prepared.isDecimal, Bool.and_eq_true, decide_eq_true_eq] at hs hd
  obtain ⟨rfl, hdec⟩ := hd
  obtain ⟨sign, behind, htext, hsign, hrest⟩ := Token.exists_of_cut_eq_cons _ 0 ht
  rw [hs.1.2] at hsign
  obtain rfl : ['-'] = sign := hsign
  obtain ⟨d', after, rfl, hd', hmore⟩ := Token.exists_of_cut_eq_cons behind 0 hrest.symm
  obtain rfl : d = d' := hd'
  rw [foldl_depthAfter_decimal hdec] at hmore
  exact ⟨d, after, hdec, htext, hrest.symm.trans (by rw [hmore])⟩

namespace BeginsSigned

variable {text d after : Text} (h : BeginsSigned text d after)

include h

theorem ofText_eq : Token.ofText text = Token.minus :: ⟨.run, d⟩ :: Token.cut 0 [] [] after := by
  have hm : Token.standsAlone 0 '-' (d ++ after).head? = some .operator := by
    simp [Token.standsAlone, Token.operators]
  rw [Token.ofText_eq, h.stripped, Token.cut_cons_alone hm, h.cut]
  rfl

theorem isDecimal_run : Prepared.isDecimal ⟨.run, d⟩ = true := by
  simp [Prepared.isDecimal, h.decimal]

theorem prepare_eq : prepare text = construct scalarConstructor ('-' :: d) ++
    preparedBehind (some Token.closeParen) after := by
  rw [prepare, h.ofText_eq, Prepared.ofTokens, Prepared.pieces,
    Prepared.collect_fold rfl h.isDecimal_run, List.flatten_cons, preparedBehind,
    Prepared.collect_of_isSign (Prepared.isSign_run d) Prepared.isSign_closeParen]

theorem preparedBehind_comma : preparedBehind (some Token.comma) (Text.stripped text) =
    '-' :: (construct scalarConstructor d ++ preparedBehind (some Token.closeParen) after) := by
  have hs : Prepared.isSign (some Token.comma) Token.minus = false := rfl
  have hd : Prepared.isSign (some Token.minus) ⟨.run, d⟩ = false := rfl
  rw [preparedBehind, ← Token.ofText_eq, h.ofText_eq,
    Prepared.collect_cons (Prepared.not_folds_of_isSign hs _),
    Prepared.collect_cons (Prepared.not_folds_of_isSign hd _), piece_decimal h.decimal,
    preparedBehind,
    Prepared.collect_of_isSign (Prepared.isSign_run d) Prepared.isSign_closeParen]
  rfl

theorem signApart_eq : signApart text = '-' :: '(' :: (d ++ ')' :: after) := by
  have ha := Token.flatMap_text_cut after 0 []
  have hf : (Prepared.isSign none Token.minus && Prepared.isDecimal ⟨.run, d⟩) = true := by
    rw [h.isDecimal_run]; rfl
  unfold signApart
  rw [h.ofText_eq]
  simp only [if_pos hf, ha]
  rfl

theorem prepare_signApart : prepare (signApart text) = '-' :: '(' ::
    (construct scalarConstructor d ++ ')' :: preparedBehind (some Token.closeParen) after) := by
  have ha : Text.stripped after = after := Text.stripped_eq_self fun c hc => by
    have hm : c ∈ Text.stripped text := by rw [h.stripped]; simp [hc]
    simpa using (List.mem_filter.mp hm).2
  rw [h.signApart_eq, prepare_minus_group h.decimal, ha]

end BeginsSigned

/-! ## Derivations -/

/-- A derivation that begins with the call of a constructor begins with that as an operand. -/
theorem Derivation.Expression.eq_of_leaves_constructed : ∀ (e : Expression) {name literal : Text}
    {lexemes : List Lexeme}, e.leaves = .name name :: .mark .openParen :: .quoted literal ::
      .mark .closeParen :: lexemes → ∃ (ms : Methods) (fs : Factors) (ts : Terms),
        e = .mk (.mk (.plain (.constructed name literal ms)) fs) ts ∧
          lexemes = ms.leaves ++ (fs.leaves ++ ts.leaves)
  | .mk (.mk (.negated _) _) _, _, _, _, h => by cases h
  | .mk (.mk (.plain (.mk (.group _) _)) _) _, _, _, _, h => by cases h
  | .mk (.mk (.plain (.mk (.member _ _ _) _)) _) _, _, _, _, h => by cases h
  | .mk (.mk (.plain (.mk (.function _ .nil) _)) _) _, _, _, _, h => by cases h
  | .mk (.mk (.plain (.mk (.function n (.cons (.value e) as)) _)) _) _, _, _, _, h => by
    obtain ⟨l, tail, he, ho⟩ := e.leaves_eq
    simp only [Expression.leaves, Term.leaves, Factor.leaves, Operand.leaves, Primary.leaves,
      Arguments.leaves, Argument.leaves, he, List.cons_append, List.cons.injEq] at h
    obtain ⟨-, -, rfl, -⟩ := h
    rcases ho with ho | ho
    · cases ho
    · exact ho.elim
  | .mk (.mk (.plain (.mk (.function n (.cons (.text t) (.cons a as))) _)) _) _, _, _, _, h => by
    cases h
  | .mk (.mk (.plain (.mk (.function n (.cons (.text t) .nil)) ms)) fs) ts, _, _, _, h => by
    cases h
    exact ⟨ms, fs, ts, rfl, by simp⟩

/-- A sign in front of an operand, and the factors and terms behind that. -/
def Derivation.Operand.negatedIn (o : Operand) (fs : Factors) (ts : Terms) : Expression :=
  .mk (.mk (.negated (.plain o)) fs) ts

section
variable (o : Operand) {ms : Methods} (fs : Factors) (ts : Terms)

theorem Derivation.Operand.leaves_negatedIn :
    (o.negatedIn fs ts).leaves = .mark .minus :: (o.leaves ++ (fs.leaves ++ ts.leaves)) := by
  simp [negatedIn, Expression.leaves, Term.leaves, Factor.leaves]

theorem Derivation.Operand.nesting_negatedIn :
    (o.negatedIn fs ts).nesting = max (max o.nesting fs.nesting) ts.nesting := rfl

variable {d rest : Text} (hd : Literal.isDecimal d = true) {fs : Factors} {ts : Terms}
  (hs : Spells (ms.leaves ++ (fs.leaves ++ ts.leaves)) rest)

include hd hs

theorem spells_negatedIn_constructed :
    Spells ((Operand.constructed scalarConstructor d ms).negatedIn fs ts).leaves
      ('-' :: (construct scalarConstructor d ++ rest)) := by
  rw [Operand.leaves_negatedIn, Operand.leaves_constructed]
  exact .mark .minus (spells_construct (.inl rfl) (quote_not_mem_decimal hd) hs)

theorem spells_negatedIn_groupedLiteral :
    Spells ((groupedLiteral d ms).negatedIn fs ts).leaves
      ('-' :: '(' :: (construct scalarConstructor d ++ ')' :: rest)) := by
  have hl : Spells (Expression.single (.plain (.constructed scalarConstructor d .nil))).leaves
      (construct scalarConstructor d ++ []) := by
    rw [Expression.leaves_single]
    exact spells_construct (.inl rfl) (quote_not_mem_decimal hd) .nil
  rw [List.append_nil] at hl
  rw [Operand.leaves_negatedIn, groupedLiteral, Operand.leaves_group, List.append_assoc]
  exact .mark .minus (spells_group hl hs)

end

/-- Behind a comma a valued expression has a derivation too, and its value is the one it has with
parentheses around the decimal of its sign. -/
theorem Valued.exists_expression_behind (a : Valued) : ∃ e : Expression, e.nesting < depthLimit ∧
    Spells e.leaves (preparedBehind (some Token.comma) (Text.stripped a.text)) ∧
      e.denote = evaluate (signApart a.text) := by
  obtain ⟨e, hn, hs, hd⟩ := a.exists_expression
  by_cases hf : ∀ t rest, Token.ofText a.text = t :: rest → ¬Folds none t rest
  · refine ⟨e, hn, ?_, by rw [signApart_of_not_folds hf, a.alone, hd]⟩
    have hp : preparedBehind (some Token.comma) (Text.stripped a.text) = prepare a.text :=
      preparedBehind_comma hf
    rwa [hp]
  push Not at hf
  obtain ⟨t, rest, ht, hf⟩ := hf
  obtain ⟨d, after, h⟩ := exists_beginsSigned ht hf
  -- by itself the expression begins with the scalar of the negative literal
  rw [h.prepare_eq] at hs
  obtain ⟨lexemes, hl, hs⟩ := of_spells_construct (.inl rfl) (quote_not_mem_minus h.decimal) hs
  obtain ⟨ms, fs, ts, rfl, rfl⟩ := e.eq_of_leaves_constructed hl
  have hn' : max (max ms.nesting fs.nesting) ts.nesting < depthLimit := by
    rwa [← Operand.nesting_constructed scalarConstructor ('-' :: d) ms]
  refine ⟨(Operand.constructed scalarConstructor d ms).negatedIn fs ts, ?_, ?_, ?_⟩
  · rwa [Operand.nesting_negatedIn, Operand.nesting_constructed]
  · rw [h.preparedBehind_comma]
    exact spells_negatedIn_constructed h.decimal hs
  · have hgroup : ((groupedLiteral d ms).negatedIn fs ts).nesting ≤ depthLimit := by
      have hm := (nesting_groupedLiteral_le d ms).mpr (by omega)
      rw [Operand.nesting_negatedIn]
      omega
    rw [evaluate, h.prepare_signApart,
      evaluatePrepared_of_spells hgroup (spells_negatedIn_groupedLiteral h.decimal hs)]
    simp only [Operand.negatedIn, Expression.denote, Term.denote, Factor.denote,
      denote_groupedLiteral]

end BinaryPoint
