import BinaryPoint.Proofs.Expression.Quotes

/-!
# Expressions in parentheses

What an expression that has a value becomes inside a longer text, once it is in parentheses:
its tokens and its prepared text are the same as by themselves, and the text behind it is cut
and prepared as text behind a closing parenthesis.

* `Valued`: an expression with its value, which it has by itself and in parentheses.
* `prepare_group`: the prepared text of a group and of what follows it.
* `Valued.exists_expression`: the derivation of a valued expression fits into a group.
-/
namespace BinaryPoint

open BinaryPoint.Derivation
open Lexeme (Spells)
open Token (cut)

/-- An expression that has the same value by itself and in parentheses. -/
structure Valued where
  text : Text
  value : Quantity
  alone : evaluate text = .ok value
  grouped : evaluate (['('] ++ text ++ [')']) = .ok value

/-- The prepared text of what stands behind the token `before`. -/
def preparedBehind (before : Option Token) (text : Text) : Text :=
  (Prepared.collect before [] (cut 0 [] [] text)).flatten

theorem prepare_eq (text : Text) : prepare text = preparedBehind none (Text.stripped text) := rfl

/-- The tokens of a group whose brackets close, and of what follows it. -/
theorem cut_group {a : Text} (hd : (Text.stripped a).foldl Token.depthAfter 0 = 0) (rest : Text) :
    cut 0 [] [] ('(' :: (Text.stripped a ++ ')' :: rest)) =
      Token.openParen :: (Token.ofText a ++ Token.closeParen :: cut 0 [] [] rest) := by
  have ho : Token.standsAlone 0 '(' (Text.stripped a ++ ')' :: rest).head? = some .operator :=
    Token.standsAlone_operator (by decide) _ _
  have hc : Token.standsAlone ((Text.stripped a).foldl Token.depthAfter 0) ')' rest.head? =
      some .operator := Token.standsAlone_operator (by decide) _ _
  rw [Token.cut_cons_alone ho, Token.cut_append _ hc, hd]
  rfl

theorem prepare_closing_group {a : Text} (hd : (Text.stripped a).foldl Token.depthAfter 0 = 0)
    (before : Option Token) (rest : Text) :
    preparedBehind before ('(' :: (Text.stripped a ++ ')' :: rest)) =
      '(' :: (prepare a ++ ')' :: preparedBehind (some Token.closeParen) rest) := by
  rw [preparedBehind, cut_group hd, Prepared.collect_parentheses]
  simp only [List.flatten_cons, List.flatten_append, List.singleton_append]
  rfl

theorem prepare_group {a : Text} {q : Quantity} (h : evaluate a = .ok q) (before : Option Token)
    (rest : Text) :
    preparedBehind before ('(' :: (Text.stripped a ++ ')' :: rest)) =
      '(' :: (prepare a ++ ')' :: preparedBehind (some Token.closeParen) rest) :=
  prepare_closing_group (foldl_depthAfter_of_evaluate h 0) before rest

/-- The prepared text behind a closing parenthesis, from a character that stands alone on. -/
theorem prepare_alone {c : Char} {rest : Text} {kind : Token.Kind}
    (h : Token.standsAlone 0 c rest.head? = some kind) :
    preparedBehind (some Token.closeParen) (c :: rest) =
      Prepared.piece ⟨kind, [c]⟩ ++ preparedBehind (some ⟨kind, [c]⟩) rest := by
  rw [preparedBehind, Token.cut_cons_alone h]
  change (Prepared.collect _ [] (_ :: _)).flatten = _
  rw [Prepared.collect_closeParen, List.flatten_cons]
  rfl

/-- The derivation of an expression in parentheses, as a factor. -/
def Derivation.Factor.ofGroup (e : Expression) : Factor := .plain (.mk (.group e) .nil)

theorem Derivation.Factor.leaves_ofGroup (e : Expression) :
    (Factor.ofGroup e).leaves = .mark .openParen :: (e.leaves ++ [.mark .closeParen]) := by
  simp [Factor.ofGroup, Factor.leaves, Operand.leaves, Primary.leaves, Methods.leaves]

theorem Derivation.Factor.nesting_ofGroup (e : Expression) :
    (Factor.ofGroup e).nesting = e.nesting + 1 := by
  simp [Factor.ofGroup, Factor.nesting, Operand.nesting, Primary.nesting, Methods.nesting]

theorem Derivation.Factor.denote_ofGroup {e : Expression} {q : Quantity} (h : e.denote = .ok q) :
    (Factor.ofGroup e).denote = .ok q := by
  simp [Factor.ofGroup, Factor.denote, Operand.denote, Primary.denote, h, bind, Except.bind,
    Methods.denote]

/-- The same with the calls of methods behind the parentheses. -/
theorem Derivation.Operand.leaves_group (e : Expression) (methods : Methods) :
    (Operand.mk (.group e) methods).leaves = (Factor.ofGroup e).leaves ++ methods.leaves := by
  simp [Factor.leaves_ofGroup, Operand.leaves, Primary.leaves]

theorem spells_group {e : Expression} {text rest : Text} {lexemes : List Lexeme}
    (h : Spells e.leaves text) (hr : Spells lexemes rest) :
    Spells ((Factor.ofGroup e).leaves ++ lexemes) ('(' :: (text ++ ')' :: rest)) := by
  rw [Factor.leaves_ofGroup, List.cons_append, List.append_assoc]
  exact .mark .openParen (h.append (.mark .closeParen hr) (Lexeme.endsName_mark .closeParen _))

/-- Since the group has a value too, there is a level left for the expression inside. -/
theorem Valued.exists_expression (a : Valued) : ∃ e : Expression,
    e.nesting < depthLimit ∧ Spells e.leaves (prepare a.text) ∧ e.denote = .ok a.value := by
  obtain ⟨e, _, hs, hd⟩ := spells_of_evaluatePrepared a.alone
  refine ⟨e, ?_, hs, hd⟩
  obtain ⟨e', hn', hs', _⟩ := spells_of_evaluatePrepared a.grouped
  have hp : prepare (['('] ++ a.text ++ [')']) = '(' :: (prepare a.text ++ [')']) := by
    rw [prepare_eq, Text.stripped_append, Text.stripped_append]
    exact prepare_group a.alone none []
  -- the derivation of the group is the group of the derivation, by unambiguity
  have hw := spells_group hs .nil
  rw [List.append_nil, ← hp] at hw
  have : e' = Expression.single (Factor.ofGroup e) :=
    spells_leaves_inj hs' (by rwa [Expression.leaves_single])
  rw [this, Expression.nesting_single, Factor.nesting_ofGroup] at hn'
  omega

end BinaryPoint
