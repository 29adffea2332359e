import BinaryPoint.Proofs.Expression.Constructs
import BinaryPoint.Proofs.Expression.Exactness
import BinaryPoint.Proofs.Expression.Literals
import BinaryPoint.Proofs.Expression.Preparation

/-!
# Quotes and brackets of accepted expressions

An expression that has a value holds no quote in its tokens, and its brackets close. In its
prepared text each string belongs to the call of a constructor; an `x` in an expression is an
operator, so the names of constructors come from literals only; and thus the text between
literals is read without any string.

* `plain_of_spells`: text without an `x` is read without quotes and brackets.
* `construct_of_spells`, `groups_of_spells`: the calls of constructors are read as calls.
* `step_of_spells`: both, for the first piece of the tokens of an expression.
* `shaped_of_evaluate`, `sound_of_evaluate`: what the tokens of an accepted expression hold.
* `foldl_depthAfter_of_evaluate`: an expression that has a value leaves no bracket open.
-/
namespace BinaryPoint

open Lexeme (Spells EndsName)

/-! ## Plain text -/

/-- Some lexemes that construct are left for the text. -/
def SpellsConstructs (text : Text) : Prop := ∃ lexemes, Spells lexemes text ∧ Constructs lexemes

/-- Neither a quote nor a bracket. -/
def IsPlain (c : Char) : Prop := c ∉ ['"', '[', ']']

theorem isPlain_of_isNameRest {c : Char} (h : Lexeme.isNameRest c = true) : IsPlain c := by
  intro hm
  simp only [List.mem_cons, List.not_mem_nil, or_false] at hm
  rcases hm with rfl | rfl | rfl <;> revert h <;> decide

theorem isPlain_of_isBlank {c : Char} (h : Text.isBlank c = true) : IsPlain c := by
  intro hm
  simp only [List.mem_cons, List.not_mem_nil, or_false] at hm
  rcases hm with rfl | rfl | rfl <;> revert h <;> decide

theorem isPlain_char (m : Mark) : IsPlain m.char := by cases m <;> unfold IsPlain <;> decide

theorem not_isConstructor_of_not_mem {name : Text} (h : 'x' ∉ name) : ¬IsConstructor name := by
  rintro (rfl | rfl) <;> exact h (by decide)

/-- A name that the text in front of an end of names begins with ends in that text. -/
theorem eq_append_of_endsName {u rest more text : Text} (h : u ++ rest = more ++ text)
    (hm : ∀ d ∈ more, Lexeme.isNameRest d = true) (he : EndsName rest) :
    ∃ v, u = more ++ v ∧ text = v ++ rest := by
  rcases List.append_eq_append_iff.mp h with ⟨v, rfl, hr⟩ | ⟨v, hu, ht⟩
  · cases v with
    | nil => exact ⟨[], by simp, by simpa using hr.symm⟩
    | cons d v =>
      have := he d (by rw [hr]; rfl)
      rw [hm d (by simp)] at this
      cases this
  · exact ⟨v, hu, ht⟩

/-- Without an `x` the text begins with a blank, a mark or a name that is no constructor. -/
theorem plain_step {c : Char} {u rest : Text} (he : EndsName rest) (hx : 'x' ∉ c :: u)
    (h : SpellsConstructs (c :: (u ++ rest))) :
    ∃ w v, u = w ++ v ∧ (∀ d ∈ c :: w, IsPlain d) ∧ SpellsConstructs (v ++ rest) := by
  have single (hp : IsPlain c) : ∀ d ∈ [c], IsPlain d := fun d hd => List.mem_singleton.mp hd ▸ hp
  obtain ⟨lexemes, hs, hc⟩ := h
  generalize ht : c :: (u ++ rest) = text at hs
  cases hs with
  | nil => cases ht
  | blank hb hs => cases ht; exact ⟨[], u, rfl, single (isPlain_of_isBlank hb), _, hs, hc⟩
  | mark m hs => cases ht; exact ⟨[], u, rfl, single (isPlain_char m), _, hs, hc.of_mark⟩
  -- lexemes that construct never begin with a string: its constructor would be before it
  | quoted => cases hc
  | name hn hm _ hs =>
    rw [List.cons.injEq] at ht
    obtain ⟨rfl, ht⟩ := ht
    obtain ⟨v, rfl, rfl⟩ := eq_append_of_endsName ht hm he
    refine ⟨_, v, rfl, fun d hd => isPlain_of_isNameRest ?_, _, hs, hc.of_name ?_⟩
    · rcases List.mem_cons.mp hd with rfl | hd
      · exact Lexeme.isNameRest_of_isNameStart hn
      · exact hm d hd
    · refine not_isConstructor_of_not_mem fun hm => hx ?_
      exact List.mem_append_left v hm

/-- A text without an `x` is read without quotes and brackets, up to an end of names. -/
theorem plain_of_spells (u : Text) {rest : Text} (he : EndsName rest) (hx : 'x' ∉ u)
    (h : SpellsConstructs (u ++ rest)) : (∀ c ∈ u, IsPlain c) ∧ SpellsConstructs rest := by
  match u with
  | [] => exact ⟨nofun, h⟩
  | c :: u =>
    obtain ⟨w, v, hu, hw, h⟩ := plain_step he hx h
    have hl : v.length < (c :: u).length := by
      rw [hu, List.length_cons, List.length_append]; omega
    rw [hu, ← List.cons_append] at hx ⊢
    rw [List.mem_append, not_or] at hx
    obtain ⟨hv, hr⟩ := plain_of_spells v he hx.2 h
    exact ⟨fun d hd => (List.mem_append.mp hd).elim (hw d) (hv d), hr⟩
termination_by u.length

theorem IsConstructor.eq_cons {name : Text} (h : IsConstructor name) : ∃ c more,
    name = c :: more ∧ Lexeme.isNameStart c = true ∧ ∀ d ∈ more, Lexeme.isNameRest d = true := by
  rcases h with rfl | rfl
  · exact ⟨'S', "calarFromText".toList, rfl, rfl, List.all_eq_true.mp rfl⟩
  · exact ⟨'V', "ectorFromText".toList, rfl, rfl, List.all_eq_true.mp rfl⟩

/-- The call of a constructor, lexeme by lexeme. -/
theorem of_spells_construct {name literal rest : Text} (hn : IsConstructor name)
    (hq : '"' ∉ literal) {lexemes : List Lexeme}
    (h : Spells lexemes (Prepared.construct name literal ++ rest)) : ∃ tail,
      lexemes = .name name :: .mark .openParen :: .quoted literal :: .mark .closeParen :: tail ∧
        Spells tail rest := by
  obtain ⟨c, more, rfl, hstart, hmore⟩ := hn.eq_cons
  rw [Prepared.construct_append, List.cons_append] at h
  obtain ⟨_, rfl, hopen⟩ := h.of_name hstart hmore (Lexeme.endsName_mark _ _)
  obtain ⟨_, rfl, hquote⟩ := hopen.of_mark
  obtain ⟨inner, after, _, hi, hqi, rfl, hclose⟩ := hquote.of_quote
  have he := (Text.cutAt_eq_some.mpr ⟨rfl, hq⟩).symm.trans (Text.cutAt_eq_some.mpr ⟨hi, hqi⟩)
  cases he
  obtain ⟨tail, rfl, hrest⟩ := hclose.of_mark
  exact ⟨tail, rfl, hrest⟩

theorem construct_of_spells {name literal rest : Text} (hn : IsConstructor name)
    (hq : '"' ∉ literal) (h : SpellsConstructs (Prepared.construct name literal ++ rest)) :
    SpellsConstructs rest := by
  obtain ⟨lexemes, hs, hc⟩ := h
  obtain ⟨tail, rfl, hrest⟩ := of_spells_construct hn hq hs
  obtain ⟨_, _, he, hafter⟩ := hc.of_call hn
  cases he
  exact ⟨tail, hrest, hafter⟩

/-! ## Pieces of tokens -/

open Literal (IsItemChar)

theorem isPlain_of_isItemChar {c : Char} (h : IsItemChar c) : IsPlain c := fun hm =>
  h.not_mem (by simp only [List.mem_cons, List.not_mem_nil, or_false] at hm ⊢; tauto)

theorem ne_of_isItemChar {c : Char} (h : IsItemChar c) : c ≠ '"' ∧ c ≠ 'x' := by
  have := h.not_mem
  simp only [List.mem_cons, not_or] at this
  exact ⟨this.1, this.2.2.2.1⟩

theorem group_of_spells {g rest : Text} (hg : ∀ c ∈ g, IsItemChar c) (he : EndsName rest)
    (h : SpellsConstructs (Prepared.group g ++ rest)) : SpellsConstructs rest := by
  unfold Prepared.group at h
  dsimp only at h
  split at h
  · refine construct_of_spells (.inr rfl) (fun hm => ?_) h
    simp only [List.cons_append, List.nil_append, List.mem_cons, List.mem_append,
      List.not_mem_nil, or_false] at hm
    rcases hm with hm | hm | hm
    · cases hm
    · exact (ne_of_isItemChar (hg _ hm)).1 rfl
    · cases hm
  · exact (plain_of_spells g he (fun hm => (ne_of_isItemChar (hg _ hm)).2 rfl) h).2

theorem groups_of_spells {rest : Text} (he : EndsName rest) : ∀ gs : List Text,
    (∀ g ∈ gs, ∀ c ∈ g, IsItemChar c) →
    SpellsConstructs (Text.join [','] (gs.map Prepared.group) ++ rest) → SpellsConstructs rest
  | [], _, h => h
  | [g], hg, h => by
    rw [List.map_singleton, Text.join_singleton] at h
    exact group_of_spells (hg g List.mem_cons_self) he h
  | g :: g' :: gs, hg, h => by
    rw [List.map_cons, Text.join_cons _ _ (by simp), List.append_assoc, List.append_assoc] at h
    obtain ⟨lexemes, hs, hc⟩ :=
      group_of_spells (hg g List.mem_cons_self) (Lexeme.endsName_mark .comma _) h
    obtain ⟨_, rfl, hrest⟩ := Spells.of_mark (m := .comma) hs
    exact groups_of_spells he (g' :: gs) (fun f hf => hg f (List.mem_cons_of_mem _ hf))
      ⟨_, hrest, hc.of_mark⟩

/-! ## Tokens -/

open Token (Segmented depthAfter)

/-- The brackets of the text leave the depth as it was, and there is no quote. -/
def Sound (text : Text) : Prop := (∀ depth, text.foldl depthAfter depth = depth) ∧ '"' ∉ text

theorem ne_bracket_of_isPlain {c : Char} (h : IsPlain c) : c ≠ '[' ∧ c ≠ ']' := by
  simp only [IsPlain, List.mem_cons, List.not_mem_nil, or_false, not_or] at h
  exact h.2

theorem foldl_of_isPlain {text : Text} (h : ∀ c ∈ text, IsPlain c) (depth : Nat) :
    text.foldl depthAfter depth = depth :=
  Token.foldl_depthAfter_of_ne (fun c hc => ne_bracket_of_isPlain (h c hc)) depth

theorem sound_of_isPlain {text : Text} (h : ∀ c ∈ text, IsPlain c) : Sound text :=
  ⟨foldl_of_isPlain h, fun hm => h _ hm (by decide)⟩

theorem foldl_join_groups : ∀ gs : List Text, (∀ g ∈ gs, ∀ c ∈ g, IsPlain c) → ∀ depth : Nat,
    (Text.join [']', ',', '['] gs).foldl depthAfter (depth + 1) = depth + 1
  | [], _, _ => rfl
  | [g], h, depth => by
    rw [Text.join_singleton]; exact foldl_of_isPlain (h g List.mem_cons_self) _
  | g :: g' :: gs, h, depth => by
    rw [Text.join_cons _ _ (by simp), List.foldl_append, List.foldl_append,
      foldl_of_isPlain (h g List.mem_cons_self)]
    exact foldl_join_groups (g' :: gs) (fun f hf => h f (List.mem_cons_of_mem _ hf)) depth

theorem quote_not_mem_join : ∀ gs : List Text, (∀ g ∈ gs, ∀ c ∈ g, IsPlain c) →
    '"' ∉ Text.join [']', ',', '['] gs
  | [], _ => nofun
  | [g], h => by
    rw [Text.join_singleton]; exact fun hm => h g List.mem_cons_self _ hm (by decide)
  | g :: g' :: gs, h => by
    rw [Text.join_cons _ _ (by simp), List.mem_append, List.mem_append]
    rintro (hm | hm | hm)
    · exact h g List.mem_cons_self _ hm (by decide)
    · exact absurd hm (by decide)
    · exact quote_not_mem_join (g' :: gs) (fun f hf => h f (List.mem_cons_of_mem _ hf)) hm

/-- A vector literal opens a bracket, closes and opens one between groups, and closes it. -/
theorem sound_of_isVector {text interior : Text} (h : Literal.isVector text = true)
    (hi : Literal.interior? text = some interior) : Sound text := by
  have hg : ∀ g ∈ Literal.groups interior, ∀ c ∈ g, IsPlain c := fun g hg c hc =>
    isPlain_of_isItemChar (Literal.isItemChar_of_isVector h hi g hg c hc)
  rw [Literal.eq_of_interior? hi, ← Literal.join_groups interior]
  constructor
  · intro depth
    -- the first bracket raises the depth by one, so the groups between never meet depth zero
    rw [List.foldl_cons, List.foldl_append]
    change List.foldl depthAfter (List.foldl depthAfter (depth + 1) _) [']'] = depth
    rw [foldl_join_groups _ hg]; rfl
  · rw [List.mem_cons, List.mem_append]
    rintro (hm | hm | hm)
    · cases hm
    · exact quote_not_mem_join _ hg hm
    · exact absurd hm (by decide)

/-- What a token of an accepted expression is: without quotes and brackets, or a vector literal. -/
def Shaped (text : Text) : Prop := (∀ c ∈ text, IsPlain c) ∨ Literal.isVector text = true

theorem Shaped.sound {text : Text} (h : Shaped text) : Sound text := by
  rcases h with h | h
  · exact sound_of_isPlain h
  · obtain ⟨interior, hi⟩ := Literal.exists_interior h
    exact sound_of_isVector h hi

theorem vector_of_spells {text rest : Text} (hv : Literal.isVector text = true)
    (he : EndsName rest) (h : SpellsConstructs (Prepared.vector text ++ rest)) :
    SpellsConstructs rest := by
  obtain ⟨interior, hi⟩ := Literal.exists_interior hv
  refine groups_of_spells he _ (fun g hg => ?_) h
  rw [hi] at hg
  exact Literal.isItemChar_of_isVector hv hi g (List.mem_filter.mp hg).1

theorem scalar_of_spells {text rest : Text} (hc : ∀ c ∈ text, IsItemChar c)
    (h : SpellsConstructs (Prepared.construct Prepared.scalarConstructor text ++ rest)) :
    Shaped text ∧ SpellsConstructs rest :=
  ⟨.inl fun c hm => isPlain_of_isItemChar (hc c hm),
    construct_of_spells (.inl rfl) (fun hm => (ne_of_isItemChar (hc _ hm)).1 rfl) h⟩

theorem run_of_spells {text rest : Text} (hx : 'x' ∉ text) (he : EndsName rest)
    (h : SpellsConstructs (Prepared.piece ⟨.run, text⟩ ++ rest)) :
    Shaped text ∧ SpellsConstructs rest := by
  simp only [Prepared.piece] at h
  split at h
  · rename_i hc
    exact scalar_of_spells (Literal.isItemChar_of_isHex (Literal.isHex_of_classify hc)) h
  · rename_i hc
    exact scalar_of_spells (Literal.isItemChar_of_isDecimal (Literal.isDecimal_of_classify hc)) h
  · rename_i hc
    have hv := Literal.isVector_of_classify hc
    exact ⟨.inr hv, vector_of_spells hv he h⟩
  · exact (plain_of_spells text he hx h).imp_left .inl

theorem exists_mark_of_isOperator {c : Char} (h : Token.IsOperator c) :
    ∃ m : Mark, Prepared.piece ⟨.operator, [c]⟩ = [m.char] := by
  simp only [Token.IsOperator, Token.operators, List.mem_cons, List.not_mem_nil, or_false] at h
  rcases h with (rfl | rfl | rfl | rfl | rfl | rfl) | rfl
  · exact ⟨.plus, rfl⟩
  · exact ⟨.star, rfl⟩
  · exact ⟨.star, rfl⟩
  · exact ⟨.slash, rfl⟩
  · exact ⟨.openParen, rfl⟩
  · exact ⟨.closeParen, rfl⟩
  · exact ⟨.minus, rfl⟩

theorem SpellsConstructs.of_mark {m : Mark} {rest : Text} (h : SpellsConstructs ([m.char] ++ rest)) :
    SpellsConstructs rest := by
  obtain ⟨lexemes, hs, hc⟩ := h
  obtain ⟨_, rfl, hrest⟩ := Spells.of_mark hs
  exact ⟨_, hrest, hc.of_mark⟩

theorem shaped_operator {c : Char} (h : Token.IsOperator c) : Shaped [c] := by
  refine .inl fun d hd => ?_
  rw [List.mem_singleton.mp hd]
  simp only [Token.IsOperator, Token.operators, List.mem_cons, List.not_mem_nil, or_false] at h
  rcases h with (rfl | rfl | rfl | rfl | rfl | rfl) | rfl <;> unfold IsPlain <;> decide

/-- Behind a run comes nothing, or a mark. -/
theorem endsName_collect_run {text : Text} {rest : List Token} (hs : Segmented rest)
    (hr : ∀ t ∈ rest.head?, t.kind ≠ .run) :
    EndsName (Prepared.collect (some ⟨.run, text⟩) [] rest).flatten := by
  have hsign : ∀ t, Prepared.isSign (some ⟨.run, text⟩) t = false := by simp [Prepared.isSign]
  cases hs with
  | nil => exact Lexeme.endsName_nil
  | operator h =>
    rw [Prepared.collect_cons (Prepared.not_folds_of_isSign (hsign _) _), List.flatten_cons]
    obtain ⟨m, hm⟩ := exists_mark_of_isOperator h
    rw [hm]; exact Lexeme.endsName_mark m _
  | dot =>
    rw [Prepared.collect_cons (Prepared.not_folds_of_isSign (hsign _) _), List.flatten_cons]
    exact Lexeme.endsName_mark .dot _
  | run => exact absurd rfl (hr _ rfl)

theorem shaped_of_isSign {before : Option Token} {t : Token}
    (h : Prepared.isSign before t = true) : Shaped t.text := by
  simp only [Prepared.isSign, Bool.and_eq_true, decide_eq_true_eq] at h
  rw [h.1.2]; exact shaped_operator (.inr rfl)

/-- The first piece is read to its end, and what its tokens hold is known from how it is read. -/
theorem step_of_spells {token : Token} {rest : List Token} {before : Option Token}
    (hs : Segmented (token :: rest))
    (h : SpellsConstructs (Prepared.collect before [] (token :: rest)).flatten) :
    Shaped token.text ∧
      ((∃ next tail, rest = next :: tail ∧ Prepared.isDecimal next = true ∧ Shaped next.text ∧
          SpellsConstructs (Prepared.collect (some next) [] tail).flatten) ∨
        SpellsConstructs (Prepared.collect (some token) [] rest).flatten) := by
  by_cases hf : Prepared.Folds before token rest
  -- the sign and the literal behind it make one call, which is read as a whole
  · obtain ⟨next, tail, rfl, hsign, hdec⟩ := hf.eq_cons
    have hd : ∀ c ∈ next.text, IsItemChar c := by
      rw [Prepared.isDecimal, Bool.and_eq_true] at hdec
      exact Literal.isItemChar_of_isDecimal hdec.2
    rw [Prepared.collect_fold hsign hdec, List.flatten_cons] at h
    have hrest := construct_of_spells (.inl rfl) (fun hm => by
      rcases List.mem_cons.mp hm with hm | hm
      · cases hm
      · exact (ne_of_isItemChar (hd _ hm)).1 rfl) h
    exact ⟨shaped_of_isSign hsign, .inl ⟨next, tail, rfl, hdec,
      .inl fun c hc => isPlain_of_isItemChar (hd c hc), hrest⟩⟩
  · rw [Prepared.collect_cons hf, List.flatten_cons] at h
    cases hs with
    | operator ho =>
      obtain ⟨m, hm⟩ := exists_mark_of_isOperator ho
      rw [hm] at h
      exact ⟨shaped_operator ho, .inr h.of_mark⟩
    | dot =>
      refine ⟨.inl fun c hc => ?_, .inr (SpellsConstructs.of_mark (m := .dot) h)⟩
      rw [List.mem_singleton.mp hc]; exact isPlain_char .dot
    | run _ hc hr hs =>
      obtain ⟨hshape, hrest⟩ :=
        run_of_spells (fun hx => hc _ hx (by decide)) (endsName_collect_run hs hr) h
      exact ⟨hshape, .inr hrest⟩

/-- The induction is along the pieces. -/
theorem shaped_of_spells : ∀ (tokens : List Token) (before : Option Token), Segmented tokens →
    SpellsConstructs (Prepared.collect before [] tokens).flatten → ∀ t ∈ tokens, Shaped t.text
  | [], _, _, _ => nofun
  | token :: rest, before, hs, h => by
    obtain ⟨hshape, ⟨next, tail, rfl, -, hnext, h⟩ | h⟩ := step_of_spells hs h
    · intro t ht
      rcases List.mem_cons.mp ht with rfl | ht
      · exact hshape
      · rcases List.mem_cons.mp ht with rfl | ht
        · exact hnext
        · exact shaped_of_spells tail _ hs.tail.tail h t ht
    · intro t ht
      rcases List.mem_cons.mp ht with rfl | ht
      · exact hshape
      · exact shaped_of_spells rest _ hs.tail h t ht

/-- In front of a token that is no sign and no decimal a piece ends. -/
theorem behind_of_spells {middle : Token}
    (hm : ∀ before, Prepared.isSign before middle = false) (hd : Prepared.isDecimal middle = false)
    {after : List Token} : ∀ (tokens : List Token) (before : Option Token),
    Segmented (tokens ++ middle :: after) →
    SpellsConstructs (Prepared.collect before [] (tokens ++ middle :: after)).flatten →
    SpellsConstructs (Prepared.piece middle ++ (Prepared.collect (some middle) [] after).flatten)
  | [], before, _, h => by
    rw [List.nil_append, Prepared.collect_cons (Prepared.not_folds_of_isSign (hm before) after),
      List.flatten_cons] at h
    exact h
  | token :: rest, _, hs, h => by
    obtain ⟨-, ⟨next, tail, hn, hdec, -, h⟩ | h⟩ := step_of_spells hs h
    · cases rest with
      | nil => cases hn; rw [hd] at hdec; cases hdec
      | cons t rest => cases hn; exact behind_of_spells hm hd rest _ hs.tail.tail h
    · exact behind_of_spells hm hd rest _ hs.tail h

/-! ## Expressions that have a value -/

theorem spellsConstructs_of_evaluate {text : Text} {q : Quantity} (h : evaluate text = .ok q) :
    SpellsConstructs (prepare text) := by
  obtain ⟨e, _, hs, hd⟩ := spells_of_evaluatePrepared h
  exact ⟨_, hs, e.constructs hd⟩

theorem shaped_of_evaluate {text : Text} {q : Quantity} (h : evaluate text = .ok q) :
    ∀ t ∈ Token.ofText text, Shaped t.text :=
  shaped_of_spells _ none (Token.segmented_ofText text) (spellsConstructs_of_evaluate h)

theorem sound_of_evaluate {text : Text} {q : Quantity} (h : evaluate text = .ok q) :
    ∀ t ∈ Token.ofText text, Sound t.text := fun t ht => (shaped_of_evaluate h t ht).sound

/-- A run that is no literal is read as it stands, from its first character on. -/
theorem other_of_evaluate {text run : Text} {q : Quantity} (h : evaluate text = .ok q)
    {tokens after : List Token} (ht : Token.ofText text = tokens ++ ⟨.run, run⟩ :: after)
    (hc : Literal.classify run = .other) :
    SpellsConstructs (run ++ (Prepared.collect (some ⟨.run, run⟩) [] after).flatten) := by
  have hp : Prepared.piece ⟨.run, run⟩ = run := by simp [Prepared.piece, hc]
  have hd : Prepared.isDecimal ⟨.run, run⟩ = false := by
    simpa [Prepared.isDecimal] using Literal.isDecimal_of_other hc
  have hs := Token.segmented_ofText text
  have hw := spellsConstructs_of_evaluate h
  rw [prepare, Prepared.ofTokens, Prepared.pieces, ht] at hw
  rw [ht] at hs
  have hb := behind_of_spells (fun _ => rfl) hd tokens none hs hw
  rwa [hp] at hb

/-- Behind an expression that has a value as many brackets are open as before it. -/
theorem foldl_depthAfter_of_evaluate {text : Text} {q : Quantity} (h : evaluate text = .ok q)
    (depth : Nat) : (Text.stripped text).foldl depthAfter depth = depth := by
  rw [← Token.flatMap_text_ofText]
  have hs := sound_of_evaluate h
  generalize Token.ofText text = tokens at hs
  induction tokens with
  | nil => rfl
  | cons t rest ih =>
    rw [List.flatMap_cons, List.foldl_append, (hs t List.mem_cons_self).1]
    exact ih fun t ht => hs t (List.mem_cons_of_mem _ ht)

end BinaryPoint
