import BinaryPoint.Expression.Lexeme
import BinaryPoint.Expression.Prepared
import BinaryPoint.Proofs.Expression.Segments

/-!
# Preparing tokens in front of others

The pieces of tokens depend on what surrounds them only through a minus, which is a sign or
not by the token before it and is folded or not by the token behind it.

* `collect_fold`, `collect_cons`: the two ways in which the first tokens make a piece.
* `collect_append`: a token that is neither a minus nor a decimal separates the pieces of the
  tokens on its two sides.
* `collect_openParen`: behind an opening parenthesis, tokens have the pieces that they have by
  themselves.
-/
namespace BinaryPoint

/-- The token of an opening parenthesis. -/
def Token.openParen : Token := ⟨.operator, ['(']⟩

/-- The token of a closing parenthesis. -/
def Token.closeParen : Token := ⟨.operator, [')']⟩

namespace Prepared

/-- The first token is a sign that is folded into the literal behind it. -/
def Folds (before : Option Token) (token : Token) (rest : List Token) : Prop :=
  isSign before token = true ∧ ∃ next ∈ rest.head?, isDecimal next = true

theorem Folds.eq_cons {before : Option Token} {token : Token} {rest : List Token}
    (h : Folds before token rest) : ∃ next tail, rest = next :: tail ∧
      isSign before token = true ∧ isDecimal next = true := by
  obtain ⟨hs, next, hn, hd⟩ := h
  cases rest with
  | nil => cases hn
  | cons a tail => cases hn; exact ⟨next, tail, rfl, hs, hd⟩

/-! ## One piece -/

/-- A call of a constructor, character by character. -/
theorem construct_append (name literal rest : Text) : construct name literal ++ rest =
    name ++ Mark.openParen.char :: '"' :: (literal ++ '"' :: Mark.closeParen.char :: rest) := by
  simp [construct, Mark.char]

theorem collect_append_done : ∀ (tokens : List Token) (before : Option Token)
    (done done' : List Text),
    collect before (done ++ done') tokens = done'.reverse ++ collect before done tokens
  | [], _, _, _ => by simp [collect]
  | [_], _, _, _ => by simp [collect]
  | token :: next :: rest, before, done, done' => by
    rw [collect, collect]
    split
    · exact collect_append_done rest (some next) (_ :: done) done'
    · exact collect_append_done (next :: rest) (some token) (_ :: done) done'

theorem collect_done (tokens : List Token) (before : Option Token) (piece : Text) :
    collect before [piece] tokens = piece :: collect before [] tokens :=
  collect_append_done tokens before [] [piece]

theorem collect_fold {before : Option Token} {token next : Token} (hs : isSign before token = true)
    (hd : isDecimal next = true) (rest : List Token) :
    collect before [] (token :: next :: rest) =
      construct scalarConstructor ('-' :: next.text) :: collect (some next) [] rest := by
  rw [collect, if_pos (by rw [hs, hd]; rfl), collect_done]

theorem collect_cons {before : Option Token} {token : Token} {rest : List Token}
    (h : ¬Folds before token rest) :
    collect before [] (token :: rest) = piece token :: collect (some token) [] rest := by
  cases rest with
  | nil => rfl
  | cons next rest =>
    rw [collect, if_neg, collect_done]
    intro hf
    rw [Bool.and_eq_true] at hf
    exact h ⟨hf.1, next, rfl, hf.2⟩

theorem not_folds_of_isSign {before : Option Token} {token : Token}
    (h : isSign before token = false) (rest : List Token) : ¬Folds before token rest := by
  rintro ⟨hs, _⟩; rw [h] at hs; cases hs

theorem not_folds_nil (before : Option Token) (token : Token) : ¬Folds before token [] :=
  fun ⟨_, _, h, _⟩ => nomatch h

theorem not_folds_cons {next : Token} (h : isDecimal next = false) (before : Option Token)
    (token : Token) (rest : List Token) : ¬Folds before token (next :: rest) := by
  rintro ⟨_, _, ⟨⟩, hd⟩; rw [h] at hd; cases hd

/-- Where nothing is a sign, it does not matter which token is before. -/
theorem collect_of_isSign {before before' : Option Token} (h : ∀ t, isSign before t = false)
    (h' : ∀ t, isSign before' t = false) (tokens : List Token) :
    collect before [] tokens = collect before' [] tokens := by
  cases tokens with
  | nil => rfl
  | cons t rest =>
    rw [collect_cons (not_folds_of_isSign (h t) rest), collect_cons (not_folds_of_isSign (h' t) rest)]

theorem isSign_run (run : Text) (t : Token) : isSign (some ⟨.run, run⟩) t = false := by
  simp [isSign]

/-! ## Tokens on both sides of another -/

/-- A token that is no sign, whatever is before it, and no decimal stays by itself. -/
theorem collect_append {middle : Token} (hs : ∀ before, isSign before middle = false)
    (hd : isDecimal middle = false) (after : List Token) :
    ∀ (tokens : List Token) (before : Option Token),
      collect before [] (tokens ++ middle :: after) =
        collect before [] tokens ++ piece middle :: collect (some middle) [] after
  | [], before => collect_cons (not_folds_of_isSign (hs before) after)
  | [token], before => by
    rw [List.singleton_append, collect_cons (not_folds_cons hd _ _ _),
      collect_cons (not_folds_of_isSign (hs _) after), collect_cons (not_folds_nil _ _)]
    rfl
  | token :: next :: rest, before => by
    by_cases hf : Folds before token (next :: rest)
    · obtain ⟨hsign, _, ⟨⟩, hdec⟩ := hf
      rw [collect_fold hsign hdec, List.cons_append, List.cons_append, collect_fold hsign hdec,
        collect_append hs hd after rest (some next)]
      rfl
    · have hf' : ¬Folds before token (next :: rest ++ middle :: after) := hf
      rw [collect_cons hf, List.cons_append, collect_cons hf',
        collect_append hs hd after (next :: rest) (some token)]
      rfl

theorem isSign_openParen (token : Token) :
    isSign (some Token.openParen) token = isSign none token := by
  simp [isSign, Token.openParen]

theorem isSign_closeParen (token : Token) : isSign (some Token.closeParen) token = false := by
  simp [isSign, Token.closeParen]

theorem collect_openParen (tokens : List Token) :
    collect (some Token.openParen) [] tokens = pieces tokens := by
  match tokens with
  | [] => rfl
  | [_] => rfl
  | token :: next :: rest => rw [pieces, collect, collect, isSign_openParen]

/-- Tokens in parentheses, in front of others. -/
theorem collect_parentheses (before : Option Token) (tokens after : List Token) :
    collect before [] (Token.openParen :: (tokens ++ Token.closeParen :: after)) =
      ['('] :: (pieces tokens ++ [')'] :: collect (some Token.closeParen) [] after) := by
  have ho : ∀ before, isSign before Token.openParen = false := fun _ => rfl
  have hc : ∀ before, isSign before Token.closeParen = false := fun _ => rfl
  rw [collect_cons (not_folds_of_isSign (ho before) _), collect_append hc rfl, collect_openParen]
  rfl

/-- Nothing is a sign behind a closing parenthesis. -/
theorem collect_closeParen (token : Token) (rest : List Token) :
    collect (some Token.closeParen) [] (token :: rest) =
      piece token :: collect (some token) [] rest :=
  collect_cons (not_folds_of_isSign (isSign_closeParen token) rest)

end Prepared

end BinaryPoint
