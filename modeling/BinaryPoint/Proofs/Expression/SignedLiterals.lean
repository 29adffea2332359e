import BinaryPoint.Proofs.Expression.Brackets
import BinaryPoint.Proofs.Expression.Groups
import BinaryPoint.Proofs.Scalar.SignedText

/-!
# Signs of decimal literals

A minus in front of a decimal literal is part of the literal, and a minus in front of parentheses
negates what they hold once its methods are called. So parentheses around a literal with its minus
change nothing, and parentheses around the literal alone change two things: the methods are called
before the sign changes and not behind it, and the word of the literal is cut off towards zero
where the word of the negative literal is cut off away from zero.

* `IsChain`: a text that is a chain of method calls behind an operand.
* `prepare_minus_literal`, `prepare_group_minus`, `prepare_minus_group`: the prepared texts.
* `evaluate_minus_literal`, `evaluate_group_minus`, `evaluate_minus_group`: the values.
* `evaluate_signed_literal`: how the three are related.
-/
namespace BinaryPoint

open BinaryPoint.Derivation
open Lexeme (Spells)
open Prepared (construct scalarConstructor)
open Token (cut standsAlone)

/-! ## Chains of method calls -/

/-- Behind an operand the text is prepared as the calls of the methods, or as nothing: it begins
with a point that leads to a member, if it begins at all. -/
structure IsChain (text : Text) (methods : Methods) : Prop where
  begins : ∀ token ∈ (Token.ofText text).head?, token.kind = .dot
  spells : Spells methods.leaves (preparedBehind (some Token.closeParen) (Text.stripped text))

/-- A run that holds something is the next token. -/
theorem Token.head_cut_run : ∀ (text : Text) (depth : Nat) {run : Text}, run ≠ [] →
    ∃ token rest, cut depth run [] text = token :: rest ∧ token.kind = .run
  | [], depth, run, hr => ⟨⟨.run, run.reverse⟩, [], by simp [cut, Token.closeRun, hr], rfl⟩
  | c :: text, depth, run, hr => by
    cases h : standsAlone depth c text.head? with
    | none =>
      rw [Token.cut_cons_run h]
      exact Token.head_cut_run text _ (List.cons_ne_nil c run)
    | some kind =>
      rw [Token.cut_cons_alone h]
      exact ⟨⟨.run, run.reverse⟩, ⟨kind, [c]⟩ :: cut depth [] [] text,
        by simp [Token.closeRun, hr], rfl⟩

/-- The text is empty, or it begins with a point that leads to a member. -/
def BeginsMember (text : Text) : Prop :=
  text = [] ∨ ∃ tail, text = '.' :: tail ∧ standsAlone 0 '.' tail.head? = some .dot

namespace IsChain

variable {s : Text} {methods : Methods}

theorem beginsMember (h : IsChain s methods) : BeginsMember (Text.stripped s) := by
  have hb := h.begins
  rw [Token.ofText_eq] at hb
  generalize Text.stripped s = text at hb
  cases text with
  | nil => exact .inl rfl
  | cons c tail =>
    refine .inr ⟨tail, ?_⟩
    cases ha : standsAlone 0 c tail.head? with
    | none =>
      rw [Token.cut_cons_run ha] at hb
      obtain ⟨token, rest, he, hk⟩ := Token.head_cut_run tail _ (List.cons_ne_nil c [])
      have := hb token (by rw [he]; rfl)
      rw [hk] at this
      cases this
    | some kind =>
      rw [Token.cut_cons_alone ha] at hb
      have hk : kind = .dot := hb ⟨kind, [c]⟩ rfl
      subst hk
      rcases Token.standsAlone_eq_some ha with ⟨hk, -⟩ | ⟨-, rfl⟩
      · cases hk
      · exact ⟨rfl, ha⟩

/-- A point is no sign, so the chain is prepared in the same way whatever is before it. -/
theorem preparedBehind_eq (h : IsChain s methods) (before : Option Token) :
    preparedBehind before (Text.stripped s) =
      preparedBehind (some Token.closeParen) (Text.stripped s) := by
  rcases h.beginsMember with he | ⟨tail, he, ha⟩
  · rw [he]
    rfl
  · have hs : ∀ b, Prepared.isSign b ⟨.dot, ['.']⟩ = false := fun b => rfl
    rw [he, preparedBehind, preparedBehind, Token.cut_cons_alone ha]
    show (Prepared.collect before [] (_ :: _)).flatten = (Prepared.collect _ [] (_ :: _)).flatten
    rw [Prepared.collect_cons (Prepared.not_folds_of_isSign (hs before) _),
      Prepared.collect_cons (Prepared.not_folds_of_isSign (hs _) _)]

end IsChain

/-! ## Prepared texts -/

theorem stripped_group (a s : Text) : Text.stripped ('(' :: (a ++ ')' :: s)) =
    '(' :: (Text.stripped a ++ ')' :: Text.stripped s) := by
  have ht : '(' :: (a ++ ')' :: s) = ['('] ++ (a ++ ([')'] ++ s)) := rfl
  rw [ht, Text.stripped_append, Text.stripped_append, Text.stripped_append]
  rfl

/-- The token of a minus outside brackets. -/
def Token.minus : Token := ⟨.operator, ['-']⟩

/-- A minus in front of an operator or a parenthesis stays by itself. -/
theorem preparedBehind_minus_alone (before : Option Token) {c : Char} {rest : Text}
    (hc : standsAlone 0 c rest.head? = some .operator) :
    preparedBehind before ('-' :: c :: rest) =
      '-' :: preparedBehind (some Token.minus) (c :: rest) := by
  have hm : standsAlone 0 '-' (c :: rest).head? = some .operator := by
    simp [standsAlone, Token.operators]
  rw [preparedBehind, Token.cut_cons_alone hm, preparedBehind, Token.cut_cons_alone hc]
  show (Prepared.collect before [] (_ :: _ :: _)).flatten = _
  rw [Prepared.collect_cons (Prepared.not_folds_cons rfl _ _ _)]
  rfl

section Prepare

variable {d : Text} (hd : Literal.isDecimal d = true)

include hd

theorem stripped_decimal : Text.stripped d = d :=
  Text.stripped_eq_self fun c hc =>
    Literal.isBlank_of_isItemChar (Literal.isItemChar_of_isDecimal hd c hc)

theorem foldl_depthAfter_decimal : d.foldl Token.depthAfter 0 = 0 :=
  foldl_of_isPlain (fun c hc => isPlain_of_isItemChar (Literal.isItemChar_of_isDecimal hd c hc)) 0

theorem cut_decimal {rest : Text} (hr : BeginsMember rest) :
    cut 0 [] [] (d ++ rest) = ⟨.run, d⟩ :: cut 0 [] [] rest := by
  have hne : d ≠ [] := by
    obtain ⟨c, more, rfl, -⟩ := Literal.exists_digit_of_isDecimal hd
    exact List.cons_ne_nil c more
  rw [Token.cut_coherent (coheres_of_isDecimal hd 0), foldl_depthAfter_decimal hd, List.append_nil]
  rcases hr with rfl | ⟨tail, rfl, ha⟩
  · simp [cut, Token.closeRun, hne]
  · rw [Token.cut_cons_alone ha, Token.cut_cons_alone ha]
    simp [Token.closeRun, hne]

theorem piece_decimal : Prepared.piece ⟨.run, d⟩ = construct scalarConstructor d := by
  have hc : Literal.classify d = .hex ∨ Literal.classify d = .decimal := by
    by_cases hh : Literal.isHex d = true
    · exact .inl (if_pos hh)
    · exact .inr (by simp [Literal.classify, hh, hd])
  rcases hc with hc | hc <;> simp [Prepared.piece, hc]

theorem prepare_decimal : prepare d = construct scalarConstructor d := by
  have hcut := cut_decimal hd (.inl rfl)
  rw [List.append_nil] at hcut
  rw [prepare_eq, preparedBehind, stripped_decimal hd, hcut]
  show (Prepared.collect none [] [⟨.run, d⟩]).flatten = _
  simp [Prepared.collect, piece_decimal hd]

/-- A minus that is a sign makes one literal with the literal behind it. -/
theorem preparedBehind_minus {before : Option Token}
    (hb : Prepared.isSign before Token.minus = true) {rest : Text} (hr : BeginsMember rest) :
    preparedBehind before ('-' :: (d ++ rest)) =
      construct scalarConstructor ('-' :: d) ++ preparedBehind (some ⟨.run, d⟩) rest := by
  have hm : standsAlone 0 '-' (d ++ rest).head? = some .operator := by
    simp [standsAlone, Token.operators]
  have hdec : Prepared.isDecimal ⟨.run, d⟩ = true := by simp [Prepared.isDecimal, hd]
  rw [preparedBehind, Token.cut_cons_alone hm, cut_decimal hd hr]
  show (Prepared.collect before [] (Token.minus :: _ :: _)).flatten = _
  rw [Prepared.collect_fold hb hdec]
  rfl

theorem stripped_minus : Text.stripped ('-' :: d) = '-' :: d := by
  rw [← List.singleton_append, Text.stripped_append, stripped_decimal hd]
  rfl

theorem prepare_minus : prepare ('-' :: d) = construct scalarConstructor ('-' :: d) := by
  have hs : Text.stripped ('-' :: d) = '-' :: (d ++ []) := by
    rw [stripped_minus hd, List.append_nil]
  rw [prepare_eq, hs, preparedBehind_minus hd rfl (.inl rfl)]
  exact List.append_nil _

theorem prepare_group_minus (s : Text) : prepare ('(' :: '-' :: (d ++ ')' :: s)) =
    '(' :: (construct scalarConstructor ('-' :: d) ++
      ')' :: preparedBehind (some Token.closeParen) (Text.stripped s)) := by
  have hb : (Text.stripped ('-' :: d)).foldl Token.depthAfter 0 = 0 := by
    rw [stripped_minus hd]
    exact (foldl_depthAfter_decimal hd : d.foldl Token.depthAfter 0 = 0)
  have ht : Text.stripped ('(' :: '-' :: (d ++ ')' :: s)) =
      '(' :: (Text.stripped ('-' :: d) ++ ')' :: Text.stripped s) := stripped_group ('-' :: d) s
  rw [prepare_eq, ht, prepare_closing_group hb, prepare_minus hd]

theorem prepare_minus_group (s : Text) : prepare ('-' :: '(' :: (d ++ ')' :: s)) =
    '-' :: '(' :: (construct scalarConstructor d ++
      ')' :: preparedBehind (some Token.closeParen) (Text.stripped s)) := by
  have hb : (Text.stripped d).foldl Token.depthAfter 0 = 0 := by
    rw [stripped_decimal hd]
    exact foldl_depthAfter_decimal hd
  have ht : Text.stripped ('-' :: '(' :: (d ++ ')' :: s)) =
      '-' :: '(' :: (Text.stripped d ++ ')' :: Text.stripped s) := by
    rw [← List.singleton_append, Text.stripped_append, stripped_group]
    rfl
  rw [prepare_eq, ht, preparedBehind_minus_alone none (Token.standsAlone_operator (by decide) _ _),
    prepare_closing_group hb, prepare_decimal hd]

theorem prepare_minus_literal {s : Text} {methods : Methods} (hs : IsChain s methods) :
    prepare ('-' :: (d ++ s)) = construct scalarConstructor ('-' :: d) ++
      preparedBehind (some Token.closeParen) (Text.stripped s) := by
  have ht : Text.stripped ('-' :: (d ++ s)) = '-' :: (d ++ Text.stripped s) := by
    rw [← List.cons_append, Text.stripped_append, stripped_minus hd]
    rfl
  rw [prepare_eq, ht, preparedBehind_minus hd rfl hs.beginsMember, hs.preparedBehind_eq]

end Prepare

/-! ## Derivations -/

/-- A literal in parentheses, with the calls of methods behind the parentheses. -/
def groupedLiteral (literal : Text) (methods : Methods) : Operand :=
  .mk (.group (.single (.plain (.constructed scalarConstructor literal .nil)))) methods

section Grouped

variable (literal : Text) (methods : Methods)

/-- The level of the parentheses is within the limit. -/
theorem nesting_groupedLiteral_le :
    (groupedLiteral literal methods).nesting ≤ depthLimit ↔ methods.nesting ≤ depthLimit := by
  have hn : (groupedLiteral literal methods).nesting = max 1 methods.nesting := by
    simp [groupedLiteral, Operand.nesting, Primary.nesting, Factor.nesting,
      Operand.nesting_constructed, Methods.nesting]
  rw [hn]
  exact max_le_iff.trans (and_iff_right (by decide))

theorem denote_groupedLiteral : (groupedLiteral literal methods).denote =
    (Operand.constructed scalarConstructor literal methods).denote := by
  rw [groupedLiteral, Operand.denote, Primary.denote, Expression.denote_single, Factor.denote,
    Operand.denote_constructed, Operand.denote_constructed]
  cases Call.function scalarConstructor [.text literal] <;> rfl

end Grouped

theorem spells_groupedLiteral {literal rest : Text} (hq : '"' ∉ literal) {methods : Methods}
    (hs : Spells methods.leaves rest) : Spells (groupedLiteral literal methods).leaves
      ('(' :: (construct scalarConstructor literal ++ ')' :: rest)) := by
  have hl : Spells (Expression.single (.plain (.constructed scalarConstructor literal .nil))).leaves
      (construct scalarConstructor literal ++ []) := by
    rw [Expression.leaves_single]
    exact spells_construct (.inl rfl) hq .nil
  rw [List.append_nil] at hl
  rw [groupedLiteral, Operand.leaves_group]
  exact spells_group hl hs

/-! ## Values -/

section Values

variable {o : Operand} {text : Text} (hs : Spells o.leaves text) (q : Quantity)

include hs

theorem evaluatePrepared_operand :
    evaluatePrepared text = .ok q ↔ o.nesting ≤ depthLimit ∧ o.denote = .ok q := by
  have hl : Spells (Expression.single (.plain o)).leaves text := by
    rwa [Expression.leaves_single, Factor.leaves]
  rw [evaluatePrepared_eq_ok_iff hl, Expression.nesting_single, Expression.denote_single,
    Factor.nesting, Factor.denote]

theorem evaluatePrepared_negated : evaluatePrepared ('-' :: text) = .ok q ↔
    o.nesting ≤ depthLimit ∧ ∃ r, o.denote = .ok r ∧ r.negate = .ok q := by
  have hl : Spells (Expression.single (.negated (.plain o))).leaves ('-' :: text) := by
    rw [Expression.leaves_single, Factor.leaves, Factor.leaves]
    exact .mark .minus hs
  rw [evaluatePrepared_eq_ok_iff hl, Expression.nesting_single, Expression.denote_single,
    Factor.nesting, Factor.nesting, Factor.denote, Factor.denote, bind_eq_ok]

end Values

/-- The methods are called on the scalar that the decimal text is read as. -/
theorem denote_decimalOperand {literal : Text} (h : literal.head? ≠ some '#') (methods : Methods)
    (q : Quantity) :
    (Operand.constructed scalarConstructor literal methods).denote = .ok q ↔
      ∃ x, Scalar.ofDecimalText literal = .ok x ∧ methods.denote (.scalar x) = .ok q := by
  rw [Operand.denote_constructed, Call.function_scalarConstructor, Scalar.ofLiteral, if_neg h]
  cases Scalar.ofDecimalText literal with
  | error e => exact ⟨nofun, fun ⟨_, hx, _⟩ => nomatch hx⟩
  | ok x => exact ⟨fun hq => ⟨x, rfl, hq⟩, fun ⟨_, hx, hq⟩ => by cases hx; exact hq⟩

section Evaluate

variable {d s : Text} {methods : Methods} (hd : Literal.isDecimal d = true)

include hd

theorem quote_not_mem_decimal : '"' ∉ d := fun hm =>
  (Literal.isItemChar_of_isDecimal hd _ hm).not_mem (by decide)

theorem quote_not_mem_minus : '"' ∉ '-' :: d := by
  simp [quote_not_mem_decimal hd]

theorem head_decimal_ne : d.head? ≠ some '#' := by
  obtain ⟨c, more, rfl, hc⟩ := Literal.exists_digit_of_isDecimal hd
  rintro ⟨⟩
  exact absurd hc (by decide)

variable (hs : IsChain s methods) (q : Quantity)

include hs

theorem evaluate_minus_literal : evaluate ('-' :: (d ++ s)) = .ok q ↔
    methods.nesting ≤ depthLimit ∧
      ∃ y, Scalar.ofDecimalText ('-' :: d) = .ok y ∧ methods.denote (.scalar y) = .ok q := by
  rw [evaluate, prepare_minus_literal hd hs,
    evaluatePrepared_operand (o := .constructed scalarConstructor ('-' :: d) methods)
      (spells_construct (.inl rfl) (quote_not_mem_minus hd) hs.spells),
    Operand.nesting_constructed, denote_decimalOperand (by simp)]

theorem evaluate_group_minus : evaluate ('(' :: '-' :: (d ++ ')' :: s)) = .ok q ↔
    methods.nesting ≤ depthLimit ∧
      ∃ y, Scalar.ofDecimalText ('-' :: d) = .ok y ∧ methods.denote (.scalar y) = .ok q := by
  rw [evaluate, prepare_group_minus hd,
    evaluatePrepared_operand (spells_groupedLiteral (quote_not_mem_minus hd) hs.spells),
    nesting_groupedLiteral_le, denote_groupedLiteral, denote_decimalOperand (by simp)]

theorem evaluate_minus_group : evaluate ('-' :: '(' :: (d ++ ')' :: s)) = .ok q ↔
    methods.nesting ≤ depthLimit ∧ ∃ x r, Scalar.ofDecimalText d = .ok x ∧
      methods.denote (.scalar x) = .ok r ∧ r.negate = .ok q := by
  rw [evaluate, prepare_minus_group hd,
    evaluatePrepared_negated (spells_groupedLiteral (quote_not_mem_decimal hd) hs.spells),
    nesting_groupedLiteral_le, denote_groupedLiteral]
  simp only [denote_decimalOperand (head_decimal_ne hd)]
  refine and_congr_right fun _ => ⟨?_, ?_⟩
  · rintro ⟨r, ⟨x, hx, hr⟩, hq⟩
    exact ⟨x, r, hx, hr, hq⟩
  · rintro ⟨x, r, hx, hr, hq⟩
    exact ⟨r, ⟨x, hx, hr⟩, hq⟩

end Evaluate

/-- **Signs of literals.** Parentheses around a literal and its minus change no value. Parentheses
around the literal alone move the minus behind the methods: without them the methods are called on
the scalar of the negative literal, and with them their value is negated. The scalar of the negative
literal is the negated scalar, or one step below it when the literal is more than `59392` units
beyond a whole step. So the values are the same when the methods commute with the minus and the
literal is not so far beyond, and with no methods only then. -/
theorem evaluate_signed_literal {d s : Text} {methods : Methods}
    (hd : Literal.isDecimal d = true) (hs : IsChain s methods) :
    (∀ q, evaluate ('(' :: '-' :: (d ++ ')' :: s)) = .ok q ↔ evaluate ('-' :: (d ++ s)) = .ok q) ∧
    ∀ q q', evaluate ('-' :: (d ++ s)) = .ok q → evaluate ('-' :: '(' :: (d ++ ')' :: s)) = .ok q' →
      ∃ (n : Decimal) (x y : Scalar) (r : Quantity), Decimal.ofText d = .ok n ∧
        Scalar.ofDecimalText d = .ok x ∧ Scalar.ofDecimalText ('-' :: d) = .ok y ∧
        y.raw = (if n.units % 10 ^ 11 % 1525878 ≤ 59392 then (-x).raw else (-x).raw - 1) ∧
        methods.denote (.scalar y) = .ok q ∧
        methods.denote (.scalar x) = .ok r ∧ r.negate = .ok q' ∧
        (n.units % 10 ^ 11 % 1525878 ≤ 59392 →
          (q = q' ↔ methods.denote (.scalar (-x)) = r.negate)) ∧
        (methods = .nil → (q = q' ↔ n.units % 10 ^ 11 % 1525878 ≤ 59392)) := by
  refine ⟨fun q => (evaluate_group_minus hd hs q).trans (evaluate_minus_literal hd hs q).symm, ?_⟩
  intro q q' hq hq'
  obtain ⟨-, y, hy, hmy⟩ := (evaluate_minus_literal hd hs q).mp hq
  obtain ⟨-, x, r, hx, hmx, hneg⟩ := (evaluate_minus_group hd hs q').mp hq'
  obtain ⟨n, hn, hraw⟩ := Scalar.raw_minus hd hx hy
  refine ⟨n, x, y, r, hn, hx, hy, hraw, hmy, hmx, hneg, fun hle => ?_, ?_⟩
  · have hyx : y = -x := Scalar.ext (by rw [hraw, if_pos hle])
    rw [← hyx, hmy, hneg, Except.ok.injEq]
  · rintro rfl
    cases hmy
    cases hmx
    cases hneg
    rw [Quantity.scalar.injEq, Scalar.ext_iff, hraw]
    split <;> omega

/-- Two minus signs before and behind the methods cancel, with the parentheses and without them. -/
theorem evaluate_signed_literal_negate :
    let five : Quantity := .scalar (.ofWhole 5)
    let negate : Methods := .cons "Negate".toList .nil .nil
    Literal.isDecimal ['5'] = true ∧ IsChain ".Negate()".toList negate ∧
      evaluate "-5.Negate()".toList = .ok five ∧ evaluate "(-5).Negate()".toList = .ok five ∧
      evaluate "-(5).Negate()".toList = .ok five ∧
      ∃ x : Scalar, Scalar.ofDecimalText ['5'] = .ok x ∧
        negate.denote (.scalar (-x)) = .ok five := by
  intro five negate
  have hd : Literal.isDecimal ['5'] = true := by decide
  have hs : IsChain ".Negate()".toList negate :=
    ⟨by decide, @spells_noArguments 'N' "egate".toList rfl (List.all_eq_true.mp rfl)⟩
  have hq : evaluate "-5.Negate()".toList = .ok five := by decide +kernel
  have hq' : evaluate "-(5).Negate()".toList = .ok five := by decide +kernel
  obtain ⟨hgroup, hvalues⟩ := evaluate_signed_literal hd hs
  obtain ⟨n, x, y, r, hn, hx, -, -, -, -, hneg, hsame, -⟩ := hvalues five five hq hq'
  have hle : n.units % 10 ^ 11 % 1525878 ≤ 59392 := by
    have : (Decimal.ofText ['5']).toOption.map (fun n => n.units % 10 ^ 11 % 1525878) = some 0 := by
      decide +kernel
    rw [hn] at this
    exact (Option.some.inj this).trans_le (Nat.zero_le _)
  exact ⟨hd, hs, hq, (hgroup five).mpr hq, hq', x, hx, ((hsame hle).mp rfl).trans hneg⟩

/-- Parentheses around the literal alone may change the value: the word of `-0.1` is cut off from
below, and the minus of `-(5).Add(3)` negates the sum. -/
theorem evaluate_minus_group_ne :
    (¬∀ (d s : Text) (methods : Methods), Literal.isDecimal d = true → IsChain s methods →
      ∀ q q', evaluate ('-' :: (d ++ s)) = .ok q →
        evaluate ('-' :: '(' :: (d ++ ')' :: s)) = .ok q' → q = q') ∧
    evaluate "-0.1".toList = .ok (.scalar { raw := -6554 }) ∧
    evaluate "-(0.1)".toList = .ok (.scalar { raw := -6553 }) ∧
    evaluate "-5.Add(3)".toList = .ok (.scalar (.ofWhole (-2))) ∧
    evaluate "-(5).Add(3)".toList = .ok (.scalar (.ofWhole (-8))) := by
  have hfolded : evaluate "-0.1".toList = .ok (.scalar { raw := -6554 }) := by decide +kernel
  have hgrouped : evaluate "-(0.1)".toList = .ok (.scalar { raw := -6553 }) := by decide +kernel
  refine ⟨fun h => ?_, hfolded, hgrouped, by decide +kernel, by decide +kernel⟩
  have hs : IsChain [] .nil := ⟨by decide, .nil⟩
  have := h "0.1".toList [] .nil (by decide) hs _ _ hfolded hgrouped
  exact absurd this (by decide)

end BinaryPoint
