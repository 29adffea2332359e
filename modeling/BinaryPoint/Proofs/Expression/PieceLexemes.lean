import Mathlib.Data.List.Forall2
import BinaryPoint.Proofs.Expression.Brackets
import BinaryPoint.Proofs.Expression.Quotations

/-!
# Prepared text is read piece by piece

The pieces of prepared text stand next to each other without anything between them, and still no
lexeme reaches from one into the next. A name could, but runs are never neighbours, so that a mark
follows each run; a string could, but the only quotes of an expression without quotes are those of
generated calls, which are closed in their own piece.

* `ReadApart`: two texts that are read one after the other.
* `readApart_of_endsName`, `readApart_mark`, `readApart_construct`: what pieces are put together
  from.
* `ReadApart.spells_flatten`: texts that are all read apart have the lexemes of each, in order.
* `readApart_collect`: the pieces of the tokens of an expression are read apart.
* `ofText_prepare`: the lexemes of prepared text are those of its pieces.
-/
namespace BinaryPoint

open Lexeme (Spells EndsName)
open Prepared (construct collect pieces)
open Token (Segmented)

/-! ## Two texts next to each other -/

/-- In front of `rest` the text is read as it is by itself, and so is `rest` behind it. -/
def ReadApart (text rest : Text) : Prop :=
  ∀ lexemes, Spells lexemes (text ++ rest) ↔
    ∃ first second, lexemes = first ++ second ∧ Spells first text ∧ Spells second rest

theorem readApart_nil (rest : Text) : ReadApart [] rest := fun lexemes => by
  constructor
  · intro h
    exact ⟨[], lexemes, rfl, .nil, h⟩
  · rintro ⟨first, second, rfl, hf, hs⟩
    rw [Spells.unique hf .nil]
    exact hs

theorem readApart_mark (m : Mark) (rest : Text) : ReadApart [m.char] rest := fun lexemes => by
  constructor
  · intro h
    obtain ⟨tail, rfl, hs⟩ := Spells.of_mark h
    exact ⟨[.mark m], tail, rfl, .mark m .nil, hs⟩
  · rintro ⟨first, second, rfl, hf, hs⟩
    rw [Spells.unique hf (.mark m .nil)]
    exact .mark m hs

theorem readApart_construct {name literal : Text} (hn : IsConstructor name) (hq : '"' ∉ literal)
    (rest : Text) : ReadApart (construct name literal) rest := fun lexemes => by
  have hself := spells_construct hn hq .nil
  rw [List.append_nil] at hself
  constructor
  · intro h
    obtain ⟨tail, rfl, hs⟩ := of_spells_construct hn hq h
    exact ⟨[.name name, .mark .openParen, .quoted literal, .mark .closeParen], tail, rfl, hself, hs⟩
  · rintro ⟨first, second, rfl, hf, hs⟩
    rw [Spells.unique hf hself]
    exact spells_construct hn hq hs

/-- A name at the end of a text that ends names behind it ends there as well. -/
theorem endsName_of_append {text rest : Text} (h : EndsName (text ++ rest)) : EndsName text := by
  cases text with
  | nil => exact Lexeme.endsName_nil
  | cons c text => exact h

/-- A text without quotes is read up to where names end. -/
theorem exists_of_spells (text : Text) {rest : Text} (he : EndsName rest) (hq : '"' ∉ text)
    {lexemes : List Lexeme} (h : Spells lexemes (text ++ rest)) :
    ∃ first second, lexemes = first ++ second ∧ Spells first text ∧ Spells second rest := by
  match text with
  | [] => exact ⟨[], lexemes, rfl, .nil, h⟩
  | c :: more =>
    rw [List.mem_cons, not_or] at hq
    rw [List.cons_append] at h
    generalize ht : c :: (more ++ rest) = whole at h
    cases h with
    | nil => cases ht
    | blank hb hs =>
      cases ht
      obtain ⟨first, second, rfl, hf, hr⟩ := exists_of_spells more he hq.2 hs
      exact ⟨first, second, rfl, .blank hb hf, hr⟩
    | mark m hs =>
      cases ht
      obtain ⟨first, second, rfl, hf, hr⟩ := exists_of_spells more he hq.2 hs
      exact ⟨.mark m :: first, second, rfl, .mark m hf, hr⟩
    | quoted => exact absurd (List.cons.inj ht).1.symm hq.1
    | name hn hm hends hs =>
      rw [List.cons.injEq] at ht
      obtain ⟨rfl, ht⟩ := ht
      obtain ⟨v, rfl, rfl⟩ := eq_append_of_endsName ht hm he
      have hv : '"' ∉ v := fun hm => hq.2 (List.mem_append_right _ hm)
      obtain ⟨first, second, rfl, hf, hr⟩ := exists_of_spells v he hv hs
      exact ⟨_ :: first, second, rfl, .name hn hm (endsName_of_append hends) hf, hr⟩
termination_by text.length

theorem readApart_of_endsName {text rest : Text} (hq : '"' ∉ text) (he : EndsName rest) :
    ReadApart text rest := fun _ => by
  constructor
  · exact exists_of_spells text he hq
  · rintro ⟨first, second, rfl, hf, hs⟩
    exact hf.append hs he

theorem ReadApart.append {text more rest : Text} (h : ReadApart text (more ++ rest))
    (hm : ReadApart text more) (hr : ReadApart more rest) :
    ReadApart (text ++ more) rest := fun lexemes => by
  rw [List.append_assoc]
  constructor
  · intro hs
    obtain ⟨first, _, rfl, hf, hs⟩ := (h lexemes).mp hs
    obtain ⟨second, third, rfl, hs, ht⟩ := (hr _).mp hs
    exact ⟨first ++ second, third, (List.append_assoc ..).symm,
      (hm _).mpr ⟨first, second, rfl, hf, hs⟩, ht⟩
  · rintro ⟨_, third, rfl, hs, ht⟩
    obtain ⟨first, second, rfl, hf, hs⟩ := (hm _).mp hs
    exact (h _).mpr ⟨first, second ++ third, List.append_assoc .., hf,
      (hr _).mpr ⟨second, third, rfl, hs, ht⟩⟩

/-- Each text is read apart from those behind it. -/
def AllReadApart : List Text → Prop
  | [] => True
  | text :: texts => ReadApart text texts.flatten ∧ AllReadApart texts

/-- By induction on the texts: the lexemes of all are the lexemes of each, in order. -/
theorem AllReadApart.spells_flatten {texts : List Text} (h : AllReadApart texts)
    (lexemes : List Lexeme) :
    Spells lexemes texts.flatten ↔
      ∃ parts, List.Forall₂ (fun text part => Spells part text) texts parts ∧
        lexemes = parts.flatten := by
  induction texts generalizing lexemes with
  | nil =>
    constructor
    · intro hs
      exact ⟨[], .nil, Spells.unique hs .nil⟩
    · rintro ⟨_, ⟨⟩, rfl⟩
      exact .nil
  | cons text texts ih =>
    rw [List.flatten_cons, h.1]
    constructor
    · rintro ⟨first, _, rfl, hf, hs⟩
      obtain ⟨parts, hp, rfl⟩ := (ih h.2 _).mp hs
      exact ⟨first :: parts, .cons hf hp, rfl⟩
    · rintro ⟨_, hp, rfl⟩
      cases hp with
      | cons hf hp => exact ⟨_, _, rfl, hf, (ih h.2 _).mpr ⟨_, hp, rfl⟩⟩

/-! ## The pieces of an expression -/

theorem readApart_group {g rest : Text} (hq : '"' ∉ g) (he : EndsName rest) :
    ReadApart (Prepared.group g) rest := by
  unfold Prepared.group
  dsimp only
  split
  · exact readApart_construct (.inr rfl) (by simp [hq]) rest
  · exact readApart_of_endsName hq he

theorem readApart_groups {rest : Text} (he : EndsName rest) : ∀ {gs : List Text},
    (∀ g ∈ gs, '"' ∉ g) → ReadApart (Text.join [','] (gs.map Prepared.group)) rest
  | [], _ => readApart_nil rest
  | [g], hq => by
    rw [List.map_singleton, Text.join_singleton]
    exact readApart_group (hq g List.mem_cons_self) he
  | g :: g' :: gs, hq => by
    have hg : '"' ∉ g := hq g List.mem_cons_self
    have ih := readApart_groups he fun f hf => hq f (List.mem_cons_of_mem g hf)
    rw [Text.join_map_cons]
    exact (readApart_group hg (Lexeme.endsName_mark .comma _)).append
      (readApart_group hg (Lexeme.endsName_mark .comma _))
      ((readApart_mark .comma _).append (readApart_mark .comma _) ih)

theorem readApart_run {text rest : Text} (hq : '"' ∉ text) (he : EndsName rest) :
    ReadApart (Prepared.piece ⟨.run, text⟩) rest := by
  simp only [Prepared.piece]
  split
  · exact readApart_construct (.inl rfl) hq rest
  · exact readApart_construct (.inl rfl) hq rest
  · rename_i hc
    exact readApart_groups he fun g hg =>
      quote_not_mem_of_isVector (Literal.isVector_of_classify hc) (List.mem_filter.mp hg).1
  · exact readApart_of_endsName hq he

/-- The piece of a token that is not folded. Only behind a run must names end. -/
theorem readApart_piece {token : Token} {rest : List Token} (hs : Segmented (token :: rest))
    (hq : '"' ∉ token.text) :
    ReadApart (Prepared.piece token) (collect (some token) [] rest).flatten := by
  cases hs with
  | operator ho =>
    obtain ⟨m, hm⟩ := exists_mark_of_isOperator ho
    rw [hm]
    exact readApart_mark m _
  | dot => exact readApart_mark .dot _
  | run _ _ hr hs => exact readApart_run hq (endsName_collect_run hs hr)

theorem readApart_collect : ∀ {tokens : List Token} (before : Option Token), Segmented tokens →
    (∀ t ∈ tokens, '"' ∉ t.text) → AllReadApart (collect before [] tokens)
  | [], _, _, _ => trivial
  | token :: rest, before, hs, hq => by
    by_cases hf : Prepared.Folds before token rest
    · obtain ⟨next, rest, rfl, hsign, hdec⟩ := hf.eq_cons
      rw [Prepared.collect_fold hsign hdec]
      have hnext : '"' ∉ '-' :: next.text := by simp [hq next (by simp)]
      exact ⟨readApart_construct (.inl rfl) hnext _,
        readApart_collect (some next) hs.tail.tail fun t ht => hq t (by simp [ht])⟩
    · rw [Prepared.collect_cons hf]
      exact ⟨readApart_piece hs (hq token List.mem_cons_self),
        readApart_collect (some token) hs.tail fun t ht => hq t (List.mem_cons_of_mem token ht)⟩

/-- The piece that a token makes, or a sign together with the decimal that it is folded into. -/
inductive MakesPiece : List Token → Text → Prop where
  | token (t : Token) : MakesPiece [t] (Prepared.piece t)
  | folded {decimal : Token} (h : Prepared.isDecimal decimal = true) :
    MakesPiece [⟨.operator, ['-']⟩, decimal]
      (construct Prepared.scalarConstructor ('-' :: decimal.text))

theorem eq_minus_of_isSign {before : Option Token} {token : Token}
    (h : Prepared.isSign before token = true) : token = ⟨.operator, ['-']⟩ := by
  obtain ⟨kind, text⟩ := token
  simp only [Prepared.isSign, Bool.and_eq_true, decide_eq_true_eq] at h
  rw [h.1.1, h.1.2]

theorem exists_makesPiece : ∀ (tokens : List Token) (before : Option Token),
    ∃ groups : List (List Token), groups.flatten = tokens ∧
      List.Forall₂ MakesPiece groups (collect before [] tokens)
  | [], _ => ⟨[], rfl, .nil⟩
  | token :: rest, before => by
    by_cases hf : Prepared.Folds before token rest
    · obtain ⟨next, rest, rfl, hsign, hdec⟩ := hf.eq_cons
      obtain ⟨groups, rfl, hg⟩ := exists_makesPiece rest (some next)
      rw [Prepared.collect_fold hsign hdec, eq_minus_of_isSign hsign]
      exact ⟨_ :: groups, rfl, .cons (.folded hdec) hg⟩
    · obtain ⟨groups, rfl, hg⟩ := exists_makesPiece rest (some token)
      rw [Prepared.collect_cons hf]
      exact ⟨[token] :: groups, rfl, .cons (.token token) hg⟩

theorem quote_not_mem_token {text : Text} (h : '"' ∉ text) :
    ∀ t ∈ Token.ofText text, '"' ∉ t.text := fun t ht hq => by
  have hs : '"' ∈ Text.stripped text := by
    rw [← Token.flatMap_text_ofText]
    exact List.mem_flatMap.mpr ⟨t, ht, hq⟩
  exact h (List.mem_of_mem_filter hs)

/-- **Prepared text is read piece by piece.** The prepared text of an expression without quotes is
cut into pieces, one for each token but for the signs that make a piece with their decimal. It has
lexemes exactly if each of the pieces has, and then these are the lexemes of the pieces, in order. -/
theorem ofText_prepare (text : Text) (h : '"' ∉ text) :
    (prepare text = (pieces (Token.ofText text)).flatten ∧
      ∃ groups : List (List Token), groups.flatten = Token.ofText text ∧
        List.Forall₂ MakesPiece groups (pieces (Token.ofText text))) ∧
    ((∃ lexemes, Lexeme.ofText (prepare text) = .ok lexemes) ↔
      ∀ piece ∈ pieces (Token.ofText text), ∃ part, Lexeme.ofText piece = .ok part) ∧
    ∀ lexemes, Lexeme.ofText (prepare text) = .ok lexemes → ∃ parts,
      List.Forall₂ (fun piece part => Lexeme.ofText piece = .ok part)
        (pieces (Token.ofText text)) parts ∧ lexemes = parts.flatten := by
  have hspells : ∀ lexemes, Spells lexemes (prepare text) ↔ ∃ parts,
      List.Forall₂ (fun piece part => Spells part piece) (pieces (Token.ofText text)) parts ∧
        lexemes = parts.flatten :=
    (readApart_collect none (Token.segmented_ofText text) (quote_not_mem_token h)).spells_flatten
  simp only [Lexeme.ofText_eq_ok]
  refine ⟨⟨rfl, exists_makesPiece _ none⟩, ⟨?_, fun hp => ?_⟩, fun lexemes => (hspells lexemes).mp⟩
  · rintro ⟨lexemes, hs⟩
    obtain ⟨parts, hp, -⟩ := (hspells lexemes).mp hs
    have hboth := hp.imp fun piece part hs =>
      show (∃ part, Spells part piece) ∧ Spells part piece from ⟨⟨part, hs⟩, hs⟩
    exact ((List.forall₂_and_left _ _).mp hboth).1
  · choose! parts hparts using hp
    refine ⟨_, (hspells _).mpr ⟨(pieces (Token.ofText text)).map parts, ?_, rfl⟩⟩
    exact List.forall₂_map_right_iff.mpr (List.forall₂_same.mpr hparts)

/-- A sign that is folded, the alias of the multiplication in front of a name, and a vector literal
of which only one group is a vector. -/
theorem ofText_prepare_folded :
    '"' ∉ "-2xb*[3],[,]".toList ∧ ∃ parts, List.Forall₂
      (fun piece part => Lexeme.ofText piece = .ok part)
      (pieces (Token.ofText "-2xb*[3],[,]".toList)) parts ∧
        [.name Prepared.scalarConstructor, .mark .openParen, .quoted "-2".toList, .mark .closeParen,
          .mark .star, .name ['b'], .mark .star, .name Prepared.vectorConstructor,
          .mark .openParen, .quoted "[3]".toList, .mark .closeParen, .mark .comma, .mark .comma] =
        parts.flatten := by
  refine ⟨by decide, (ofText_prepare "-2xb*[3],[,]".toList (by decide)).2.2 _ ?_⟩
  decide +kernel

end BinaryPoint
