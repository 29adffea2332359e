import Mathlib.Logic.Function.Iterate
import BinaryPoint.Proofs.Expression.SignedLiterals

/-!
# Runs of minus signs

Of a run of minus signs in front of a decimal literal the last one belongs to the literal. All
others, and all in front of parentheses, change the sign of a value one after the other. The least
scalar has no negative, so its sign changed twice is not itself: it comes back one step higher, and
stays there from then on.

* `Scalar.iterate_neg`: a scalar after any number of changes of sign.
* `Quantity.negateTimes_eq`: the same for scalars and vectors.
* `preparedBehind_minuses_group`, `preparedBehind_minuses_literal`: the prepared texts.
* `evaluate_minus_run`: the value of a run in front of parentheses or of a literal.
-/
namespace BinaryPoint

open BinaryPoint.Derivation
open Lexeme (Spells)
open Prepared (construct scalarConstructor)
open Token (standsAlone)

/-! ## Changes of sign -/

namespace Scalar

/-- The scalar itself, or one step above the least one. -/
def aboveLeast (s : Scalar) : Scalar := if s = min then { raw := -2147483647 } else s

theorem neg_neg_eq (s : Scalar) : -(-s) = s.aboveLeast := by
  have hl := s.neg_le_raw
  have hu := s.raw_le
  apply Scalar.ext
  rw [raw_neg, raw_neg, aboveLeast]
  unfold clamp
  split <;> rename_i h
  · rw [h]
    decide
  · have hne : s.raw ≠ -2147483648 := fun e => h (Scalar.ext e)
    omega

theorem neg_aboveLeast (s : Scalar) : -s.aboveLeast = -s := by
  unfold aboveLeast
  split <;> rename_i h
  · rw [h]
    decide
  · rfl

/-- Only the parity of the count matters, but for the least scalar and no change at all. -/
theorem iterate_neg (s : Scalar) {n : ℕ} (hn : 1 ≤ n) :
    Neg.neg^[n] s = if n % 2 = 1 then -s else s.aboveLeast := by
  induction n, hn using Nat.le_induction with
  | base => rfl
  | succ n hn ih =>
    rw [Function.iterate_succ_apply', ih]
    by_cases h : n % 2 = 1
    · rw [if_pos h, if_neg (by omega), neg_neg_eq]
    · rw [if_neg h, if_pos (by omega), neg_aboveLeast]

end Scalar

namespace Quantity

/-- The quantity with each of its scalars replaced. -/
def mapScalars (f : Scalar → Scalar) : Quantity → Quantity
  | .scalar s => .scalar (f s)
  | .vector v => .vector ⟨f v.head, v.tail.map f⟩
  | .integer n => .integer n

theorem kind_mapScalars (f : Scalar → Scalar) (q : Quantity) : (q.mapScalars f).kind = q.kind := by
  cases q <;> rfl

theorem mapScalars_mapScalars (f g : Scalar → Scalar) (q : Quantity) :
    (q.mapScalars f).mapScalars g = q.mapScalars (g ∘ f) := by
  cases q <;> simp [mapScalars]

theorem negate_eq {q : Quantity} (h : q.kind ≠ .integer) :
    q.negate = .ok (q.mapScalars Neg.neg) := by
  cases q with
  | scalar s => rfl
  | vector v => rfl
  | integer n => exact absurd rfl h

theorem negateTimes_eq {q : Quantity} (h : q.kind ≠ .integer) (n : ℕ) :
    q.negateTimes n = .ok (q.mapScalars Neg.neg^[n]) := by
  induction n generalizing q with
  | zero => cases q <;> simp [negateTimes, mapScalars]
  | succ n ih =>
    rw [negateTimes, negate_eq h]
    show negateTimes n (q.mapScalars Neg.neg) = _
    rw [ih (by rwa [kind_mapScalars]), mapScalars_mapScalars, Function.iterate_succ]

end Quantity

/-! ## Prepared texts -/

/-- What a run of minus signs in front of a parenthesis begins with stands alone. -/
theorem exists_alone (n : ℕ) (text : Text) : ∃ c rest,
    List.replicate n '-' ++ '(' :: text = c :: rest ∧
      standsAlone 0 c rest.head? = some .operator := by
  cases n with
  | zero => exact ⟨'(', text, rfl, Token.standsAlone_operator (by decide) _ _⟩
  | succ n => exact ⟨'-', _, rfl, by simp [standsAlone, Token.operators]⟩

theorem preparedBehind_minuses_group {a : Text}
    (hd : (Text.stripped a).foldl Token.depthAfter 0 = 0) (n : ℕ) (before : Option Token) :
    preparedBehind before (List.replicate n '-' ++ '(' :: (Text.stripped a ++ [')'])) =
      List.replicate n '-' ++ '(' :: (prepare a ++ [')']) := by
  induction n generalizing before with
  | zero => exact prepare_closing_group hd before []
  | succ n ih =>
    obtain ⟨c, rest, he, hc⟩ := exists_alone n (Text.stripped a ++ [')'])
    have ih := ih (some Token.minus)
    rw [he] at ih
    rw [List.replicate_succ, List.cons_append, he, preparedBehind_minus_alone before hc, ih]
    rfl

/-- The last minus belongs to the literal. -/
theorem preparedBehind_minuses_literal {d : Text} (hd : Literal.isDecimal d = true) (n : ℕ)
    {before : Option Token} (hb : Prepared.isSign before Token.minus = true) :
    preparedBehind before (List.replicate (n + 1) '-' ++ d) =
      List.replicate n '-' ++ construct scalarConstructor ('-' :: d) := by
  induction n generalizing before with
  | zero =>
    have h := preparedBehind_minus hd hb (.inl rfl)
    rw [List.append_nil] at h
    exact h.trans (List.append_nil _)
  | succ n ih =>
    have hm : standsAlone 0 '-' (List.replicate n '-' ++ d).head? = some .operator := by
      simp [standsAlone, Token.operators]
    rw [List.replicate_succ, List.replicate_succ, List.cons_append, List.cons_append,
      preparedBehind_minus_alone before hm, ← List.cons_append, ← List.replicate_succ, ih rfl]
    rfl

theorem stripped_minuses (n : ℕ) (text : Text) :
    Text.stripped (List.replicate n '-' ++ text) = List.replicate n '-' ++ Text.stripped text := by
  rw [Text.stripped_append, Text.stripped_eq_self]
  intro c hc
  rw [List.eq_of_mem_replicate hc]
  decide

/-! ## Values -/

theorem spells_minuses {lexemes : List Lexeme} {text : Text} (h : Spells lexemes text) (n : ℕ) :
    Spells (List.replicate n (.mark .minus) ++ lexemes) (List.replicate n '-' ++ text) := by
  induction n with
  | zero => exact h
  | succ n ih => exact .mark .minus ih

theorem evaluatePrepared_minuses {o : Operand} {text : Text} (hn : o.nesting ≤ depthLimit)
    (hs : Spells o.leaves text) (n : ℕ) :
    evaluatePrepared (List.replicate n '-' ++ text) = o.denote >>= Quantity.negateTimes n := by
  obtain ⟨f, hl, hf, hd⟩ := exists_factor o n
  rw [← hd]
  exact evaluatePrepared_factor (by rwa [hf]) (by rw [hl]; exact spells_minuses hs n)

theorem evaluate_minuses_group (a : Valued) (n : ℕ) :
    evaluate (List.replicate n '-' ++ '(' :: (a.text ++ [')'])) = a.value.negateTimes n := by
  obtain ⟨e, hn, hs, hd⟩ := a.exists_expression
  have hp : prepare (List.replicate n '-' ++ '(' :: (a.text ++ [')'])) =
      List.replicate n '-' ++ '(' :: (prepare a.text ++ [')']) := by
    rw [prepare_eq, stripped_minuses, stripped_group]
    exact preparedBehind_minuses_group (foldl_depthAfter_of_evaluate a.alone 0) n none
  have hg := spells_group hs .nil
  rw [List.append_nil] at hg
  have hv : (Operand.mk (.group e) .nil).denote = .ok a.value := Factor.denote_ofGroup hd
  have hl : (Operand.mk (.group e) .nil).nesting ≤ depthLimit :=
    (Factor.nesting_ofGroup e).trans_le hn
  rw [evaluate, hp, evaluatePrepared_minuses hl hg, hv]
  rfl

theorem evaluate_minuses_literal {d : Text} (hd : Literal.isDecimal d = true) (n : ℕ) :
    evaluate (List.replicate (n + 1) '-' ++ d) =
      Quantity.ofScalar? ((Scalar.ofLiteral ('-' :: d)).map Neg.neg^[n]) := by
  let o : Operand := .constructed scalarConstructor ('-' :: d) .nil
  have hs : Spells o.leaves (construct scalarConstructor ('-' :: d) ++ []) :=
    spells_construct (.inl rfl) (quote_not_mem_minus hd) .nil
  have hn : o.nesting ≤ depthLimit :=
    (Operand.nesting_constructed scalarConstructor ('-' :: d) .nil).trans_le (Nat.zero_le _)
  rw [List.append_nil] at hs
  rw [evaluate, prepare_eq, stripped_minuses, stripped_decimal hd,
    preparedBehind_minuses_literal hd n rfl, evaluatePrepared_minuses hn hs,
    Operand.denote_constructed, Call.function_scalarConstructor]
  cases Scalar.ofLiteral ('-' :: d) with
  | error e => rfl
  | ok s => exact Quantity.negateTimes_eq (q := .scalar s) (by rintro ⟨⟩) n

/-- **Runs of minus signs.** In front of a scalar or a vector in parentheses a run of minus signs
negates it if there is an odd number of them, and otherwise keeps it but for its least components,
which come out one step higher. In front of a decimal literal the last one belongs to the literal,
and the others negate the scalar that it is read as. -/
theorem evaluate_minus_run {n : ℕ} (hn : 1 ≤ n) :
    (∀ a : Valued, a.value.kind ≠ .integer →
      evaluate (List.replicate n '-' ++ '(' :: (a.text ++ [')'])) =
        if n % 2 = 1 then a.value.negate else .ok (a.value.mapScalars Scalar.aboveLeast)) ∧
    ∀ d : Text, Literal.isDecimal d = true → evaluate (List.replicate n '-' ++ d) =
      Quantity.ofScalar? ((Scalar.ofLiteral ('-' :: d)).map Neg.neg^[n - 1]) := by
  constructor
  · intro a hk
    have hf : Neg.neg^[n] = if n % 2 = 1 then Neg.neg else Scalar.aboveLeast := by
      funext s
      rw [Scalar.iterate_neg s hn]
      split <;> rfl
    rw [evaluate_minuses_group, Quantity.negateTimes_eq hk, hf, Quantity.negate_eq hk]
    split <;> rfl
  · intro d hd
    obtain ⟨n, rfl⟩ := Nat.exists_eq_add_of_le' hn
    exact evaluate_minuses_literal hd n

/-- The least scalar beside another in front of which four signs stand, and as the literal that
takes the second of two signs. -/
theorem evaluate_minus_run_least :
    let a : Text := "[#80000000, 1]".toList
    let d : Text := "32768".toList
    (evaluate a = .ok (.vector ⟨.min, [.one]⟩) ∧ evaluate ('(' :: (a ++ [')'])) = evaluate a ∧
      evaluate "----([#80000000, 1])".toList = .ok (.vector ⟨{ raw := -2147483647 }, [.one]⟩)) ∧
    (Literal.isDecimal d = true ∧ evaluate "--32768".toList = .ok (.scalar .max)) := by
  intro a d
  let v : Quantity := .vector ⟨.min, [.one]⟩
  have ha : evaluate a = .ok v := by decide +kernel
  have hg : evaluate (['('] ++ a ++ [')']) = .ok v := by decide +kernel
  have hd : Literal.isDecimal d = true := by decide
  have four := (evaluate_minus_run (n := 4) (by decide)).1 ⟨a, v, ha, hg⟩ nofun
  have two := (evaluate_minus_run (n := 2) (by decide)).2 d hd
  exact ⟨⟨ha, hg.trans ha.symm, four.trans rfl⟩, hd, two.trans (by decide +kernel)⟩

end BinaryPoint
