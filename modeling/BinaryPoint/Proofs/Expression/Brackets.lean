import BinaryPoint.Proofs.Decimal.Numerals
import BinaryPoint.Proofs.Expression.Quotes

/-!
# One vector literal

What an expression that is one bracket group becomes: brackets keep its items in one run, the
run is a vector literal, and the literal is the call of a constructor if it can be read.

* `cut_brackets`: the run of a bracket group.
* `classify_brackets`, `prepare_brackets`: its form and its prepared text.
* `evaluatePrepared_construct`: a call of a constructor with methods behind it has the value
  that the constructor gives.
* `evaluate_brackets`: the value of a bracket group that can be read.
-/
namespace BinaryPoint

open BinaryPoint.Derivation
open Lexeme (Spells)
open Literal (IsItemChar)

/-! ## Runs -/

namespace Token

/-- The character goes on with a run at this depth, whatever follows it, and opens and closes
nothing. -/
def Stays (depth : ℕ) (c : Char) : Prop :=
  depthAfter depth c = depth ∧ ∀ next, standsAlone depth c next = none

/-- Inside brackets a minus is a sign. -/
theorem stays_of_isItemChar {c : Char} (h : IsItemChar c) (hp : c ≠ '.') {depth : ℕ}
    (hd : c = '-' → depth ≠ 0) : Stays depth c := by
  have hb := h.not_mem
  simp only [List.mem_cons, not_or] at hb
  refine ⟨depthAfter_of_ne ⟨hb.2.1, hb.2.2.1⟩ depth, fun next => ?_⟩
  have ho : operators.contains c = false := h.of_all (by decide)
  rw [standsAlone, ho, if_neg Bool.false_ne_true]
  by_cases hm : c = '-'
  · rw [if_pos hm, if_neg (hd hm)]
  · rw [if_neg hm, if_neg hp]

/-- No character of the text stands alone, whatever follows the text. -/
def Coheres : ℕ → Text → Prop
  | _, [] => True
  | depth, c :: rest => (∀ after : Text, standsAlone depth c (rest ++ after).head? = none) ∧
    Coheres (depthAfter depth c) rest

theorem Coheres.append : ∀ {s : Text} {depth : ℕ} {t : Text}, Coheres depth s →
    Coheres (s.foldl depthAfter depth) t → Coheres depth (s ++ t)
  | [], _, _, _, ht => ht
  | _ :: s, _, t, hs, ht =>
    ⟨fun after => (congrArg _ (congrArg _ (List.append_assoc s t after))).trans (hs.1 (t ++ after)),
      hs.2.append ht⟩

theorem coheres_of_stays {depth : ℕ} : ∀ {s : Text}, (∀ c ∈ s, Stays depth c) → Coheres depth s
  | [], _ => trivial
  | c :: s, h => by
    obtain ⟨hd, ha⟩ := h c List.mem_cons_self
    refine ⟨fun _ => ha _, ?_⟩
    rw [hd]
    exact coheres_of_stays fun d hm => h d (List.mem_cons_of_mem c hm)

/-- A text that coheres goes on with a run, and the run goes on behind it. -/
theorem cut_coherent : ∀ {s : Text} {depth : ℕ}, Coheres depth s → ∀ run rest : Text,
    cut depth run [] (s ++ rest) = cut (s.foldl depthAfter depth) (s.reverse ++ run) [] rest
  | [], _, _, _, _ => rfl
  | c :: s, depth, h, run, rest => by
    rw [List.cons_append, cut_cons_run (h.1 rest), cut_coherent h.2]
    simp

theorem foldl_of_stays {depth : ℕ} {s : Text} (h : ∀ c ∈ s, Stays depth c) :
    s.foldl depthAfter depth = depth := by
  induction s with
  | nil => rfl
  | cons c s ih =>
    rw [List.foldl_cons, (h c List.mem_cons_self).1]
    exact ih fun d hm => h d (List.mem_cons_of_mem c hm)

theorem cut_run {depth : ℕ} {s : Text} (h : ∀ c ∈ s, Stays depth c) (run rest : Text) :
    cut depth run [] (s ++ rest) = cut depth (s.reverse ++ run) [] rest := by
  rw [cut_coherent (coheres_of_stays h), foldl_of_stays h]

theorem stays_of_isAlpha {c : Char} (h : c.isAlpha = true) (hx : c ≠ 'x') (depth : ℕ) :
    Stays depth c := by
  have hb : c ≠ '[' ∧ c ≠ ']' := by constructor <;> rintro rfl <;> revert h <;> decide
  have hm : c ≠ '-' ∧ c ≠ '.' := by constructor <;> rintro rfl <;> revert h <;> decide
  have ho : c ∉ operators := by
    intro ho
    simp only [operators, List.mem_cons, List.not_mem_nil, or_false] at ho
    rcases ho with rfl | rfl | rfl | rfl | rfl | rfl
    · revert h; decide
    · revert h; decide
    · exact hx rfl
    · revert h; decide
    · revert h; decide
    · revert h; decide
  exact ⟨depthAfter_of_ne hb depth, fun next => by simp [standsAlone, ho, hm]⟩

/-- A word is a run of its own, up to a character that stands alone. -/
theorem cut_word {word : Text} (hn : word ≠ []) (ha : ∀ c ∈ word, c.isAlpha = true) (hx : 'x' ∉ word)
    {c : Char} {rest : Text} {kind : Kind} (hc : standsAlone 0 c rest.head? = some kind) :
    cut 0 [] [] (word ++ c :: rest) = ⟨.run, word⟩ :: ⟨kind, [c]⟩ :: cut 0 [] [] rest := by
  have hs : ∀ d ∈ word, Stays 0 d := fun d hd =>
    stays_of_isAlpha (ha d hd) (fun e => hx (e ▸ hd)) 0
  rw [cut_run hs, cut_cons_alone hc]
  simp [closeRun, hn]

theorem coheres_brackets {inner : Text} (h : Coheres 1 inner)
    (hb : ∀ c ∈ inner, c ≠ '[' ∧ c ≠ ']') : Coheres 0 ('[' :: (inner ++ [']'])) :=
  ⟨fun _ => rfl, h.append (by
    rw [foldl_depthAfter_of_ne hb]; exact ⟨fun _ => rfl, trivial⟩)⟩

/-- A bracket group makes one run, up to a character that stands alone. -/
theorem cut_brackets {inner : Text} (h : Coheres 1 inner) (hb : ∀ c ∈ inner, c ≠ '[' ∧ c ≠ ']')
    (rest : Text) : cut 0 [] [] ('[' :: (inner ++ ']' :: rest)) =
      cut 0 ('[' :: (inner ++ [']'])).reverse [] rest := by
  have hc := cut_coherent (coheres_brackets h hb) [] rest
  rwa [foldl_depthAfter_brackets hb, List.append_nil, List.cons_append, List.append_assoc] at hc

end Token

/-! ## Vector literals -/

namespace Literal

/-- The inside of the brackets of a vector literal of one group. -/
structure IsGroup (group : Text) : Prop where
  ne_nil : group ≠ []
  items : ∀ item ∈ items group, isItem item = true

theorem isDecimal_of_isDigits {digits : Text} (h : Text.isDigits digits = true) :
    isDecimal digits = true := by
  have hc : Text.cutAt '.' digits = none :=
    Text.cutAt_eq_none.mpr (Decimal.not_mem_of_isDigits h (by decide))
  simp [isDecimal, hc, h]

theorem isDecimal_body (n : Decimal.Numeral) : isDecimal n.body = true := by
  cases hp : n.places with
  | none =>
    have hb : n.body = n.whole := by rw [Decimal.Numeral.body, hp]
    rw [hb]
    exact isDecimal_of_isDigits n.whole_digits
  | some p =>
    simp [isDecimal, n.cutAt_body, hp, n.whole_digits, n.places_digits p (by rw [hp]; rfl)]

theorem isItem_numeral (n : Decimal.Numeral) : isItem n.text = true := by
  simp [isItem, n.dropMark_text, isDecimal_body n]

theorem IsGroup.isItemChar {group : Text} (h : IsGroup group) : ∀ c ∈ group, IsItemChar c :=
  isItemChar_of_items h.items

theorem IsGroup.ne_bracket {group : Text} (h : IsGroup group) :
    ∀ c ∈ group, c ≠ '[' ∧ c ≠ ']' := fun c hc =>
  ne_bracket_of_isPlain (isPlain_of_isItemChar (h.isItemChar c hc))

theorem groups_go_of_not_mem {interior : Text} (h : ']' ∉ interior) (group : Text)
    (done : List Text) :
    groups.go group done interior = done.reverse ++ [group.reverse ++ interior] := by
  fun_induction groups.go group done interior with
  | case1 => simp
  | case2 => exact absurd List.mem_cons_self h
  | case3 group done c rest _ ih => rw [ih fun hm => h (List.mem_cons_of_mem c hm)]; simp

theorem interior?_brackets {group : Text} (h : group ≠ []) :
    interior? ('[' :: (group ++ [']'])) = some group := by
  simp [interior?, h]

theorem IsGroup.groups_eq {group : Text} (h : IsGroup group) : groups group = [group] := by
  have hb : ']' ∉ group := fun hm => (h.isItemChar _ hm).not_mem (by decide)
  rw [groups, groups_go_of_not_mem hb]; rfl

theorem classify_brackets {group : Text} (h : IsGroup group) :
    classify ('[' :: (group ++ [']'])) = .vector := by
  refine classify_of_isVector ?_
  rw [isVector, interior?_brackets h.ne_nil, Option.any_some, h.groups_eq]
  simpa using h.items

end Literal

namespace Prepared

open Literal (IsGroup)

theorem piece_brackets {inner : Text} (h : IsGroup inner) :
    piece ⟨.run, '[' :: (inner ++ [']'])⟩ = group inner := by
  have hv : vector ('[' :: (inner ++ [']'])) = group inner := by
    rw [vector, Literal.interior?_brackets h.ne_nil, Option.getD_some, h.groups_eq,
      List.filter_cons_of_pos (by simpa using h.ne_nil)]
    exact Text.join_singleton _ _
  simp [piece, Literal.classify_brackets h, hv]

end Prepared

/-! ## Prepared text -/

open Literal (IsGroup)

open Token (Coheres)

theorem coheres_of_isHex {text : Text} (h : Literal.isHex text = true) : Coheres 1 text := by
  refine Token.coheres_of_stays fun c hc => ?_
  refine Token.stays_of_isItemChar (Literal.isItemChar_of_isHex h c hc) ?_ fun _ => one_ne_zero
  rintro rfl
  obtain ⟨digits, rfl, hd⟩ := Literal.isHex_iff.mp h
  have hm := (List.mem_cons.mp hc).resolve_left (by decide)
  have hx := (Text.isHexDigits_iff.mp hd).2 _ hm
  revert hx; decide

theorem coheres_of_isDigits {text : Text} (h : Text.isDigits text = true) (depth : ℕ) :
    Coheres depth text :=
  Token.coheres_of_stays fun c hc =>
    Token.stays_of_isItemChar (Literal.isItemChar_of_isDigits h c hc)
      (fun e => Decimal.not_mem_of_isDigits h (by decide) (e ▸ hc))
      fun e => absurd (e ▸ hc) (Decimal.not_mem_of_isDigits h (by decide))

/-- A digit follows the point of a decimal, so that it stays in the run. -/
theorem coheres_of_isDecimal {text : Text} (h : Literal.isDecimal text = true) (depth : ℕ) :
    Coheres depth text := by
  unfold Literal.isDecimal at h
  split at h
  · rename_i whole places hc
    obtain ⟨rfl, -⟩ := Text.cutAt_eq_some.mp hc
    rw [Bool.and_eq_true] at h
    obtain ⟨d, more, rfl⟩ := List.exists_cons_of_ne_nil (Text.isDigits_iff.mp h.2).1
    have hd : Text.isDigit d = true := (Text.isDigits_iff.mp h.2).2 d List.mem_cons_self
    have hf : whole.foldl Token.depthAfter depth = depth := foldl_of_isPlain (fun c hm =>
      isPlain_of_isItemChar (Literal.isItemChar_of_isDigits h.1 c hm)) depth
    refine (coheres_of_isDigits h.1 depth).append ?_
    rw [hf]
    exact ⟨fun after => by simp [Token.standsAlone, Token.operators, hd],
      coheres_of_isDigits h.2 depth⟩
  · exact coheres_of_isDigits h depth

theorem coheres_of_isItem {text : Text} (h : Literal.isItem text = true) : Coheres 1 text := by
  simp only [Literal.isItem, Bool.or_eq_true] at h
  rcases h with (h | h) | h
  · rw [List.isEmpty_iff.mp h]; trivial
  · exact coheres_of_isHex h
  · cases hm : Text.dropMark '-' text with
    | mk negative body =>
      rw [hm] at h
      have hb := coheres_of_isDecimal h 1
      rw [Decimal.text_eq_of_dropMark hm]
      cases negative with
      | true => exact ⟨fun _ => rfl, hb⟩
      | false => exact hb

theorem coheres_join : ∀ {items : List Text}, (∀ item ∈ items, Literal.isItem item = true) →
    Coheres 1 (Text.join [','] items)
  | [], _ => trivial
  | [item], h => by rw [Text.join_singleton]; exact coheres_of_isItem (h item List.mem_cons_self)
  | item :: item' :: items, h => by
    have hi := h item List.mem_cons_self
    have hf : item.foldl Token.depthAfter 1 = 1 := foldl_of_isPlain (fun c hm =>
      isPlain_of_isItemChar (Literal.isItemChar_of_isItem hi c hm)) 1
    rw [Text.join_cons _ _ (List.cons_ne_nil item' items)]
    refine (coheres_of_isItem hi).append ?_
    rw [hf]
    exact ⟨fun _ => rfl, coheres_join fun i hm => h i (List.mem_cons_of_mem item hm)⟩

/-- The items of a group stay in one run whatever follows them. -/
theorem coheres_of_items {group : Text} (h : ∀ item ∈ Literal.items group, Literal.isItem item = true) :
    Coheres 1 group := by
  rw [← Text.join_splitWhen ',' group]
  exact coheres_join h

theorem stripped_brackets {group : Text} (h : IsGroup group) {after : Text}
    (ha : Text.stripped after = after) :
    Text.stripped ('[' :: (group ++ ']' :: after)) = '[' :: (group ++ ']' :: after) := by
  have hg : Text.stripped group = group :=
    Text.stripped_eq_self fun c hc => Literal.isBlank_of_isItemChar (h.isItemChar c hc)
  have ht : '[' :: (group ++ ']' :: after) = ['['] ++ (group ++ ([']'] ++ after)) := rfl
  rw [ht, Text.stripped_append, Text.stripped_append, Text.stripped_append, hg, ha]
  rfl

theorem prepare_brackets {text group : Text} (h : IsGroup group)
    (ht : Text.stripped text = '[' :: (group ++ [']'])) : prepare text = Prepared.group group := by
  have hc : Token.ofText text = [⟨.run, '[' :: (group ++ [']'])⟩] := by
    rw [Token.ofText_eq, ht, Token.cut_brackets (coheres_of_items h.items) h.ne_bracket, Token.cut,
      Token.reverse_closeRun]
    simp [Token.closeRun]
  rw [prepare, hc, Prepared.ofTokens, Prepared.pieces, Prepared.collect, Prepared.piece_brackets h]
  simp

theorem prepare_brackets_int {text group : Text} (h : IsGroup group)
    (ht : Text.stripped text = '[' :: (group ++ ']' :: ".Int()".toList)) :
    prepare text = Prepared.group group ++ ".Int()".toList := by
  have ha : Token.standsAlone 0 '.' "Int()".toList.head? = some .dot := by decide
  have hc : Token.ofText text = ⟨.run, '[' :: (group ++ [']'])⟩ :: ⟨.dot, ['.']⟩ ::
      Token.cut 0 [] [] "Int()".toList := by
    have hi : ".Int()".toList = '.' :: "Int()".toList := rfl
    rw [Token.ofText_eq, ht, Token.cut_brackets (coheres_of_items h.items) h.ne_bracket, hi,
      Token.cut_cons_alone ha]
    simp [Token.closeRun]
  have hs : Prepared.isSign none ⟨.run, '[' :: (group ++ [']'])⟩ = false := rfl
  rw [prepare, hc, Prepared.ofTokens, Prepared.pieces,
    Prepared.collect_cons (Prepared.not_folds_of_isSign hs _), List.flatten_cons,
    Prepared.piece_brackets h]
  rfl

/-! ## Calls of constructors -/

theorem spells_construct {name literal rest : Text} (hn : IsConstructor name) (hq : '"' ∉ literal)
    {lexemes : List Lexeme} (hs : Spells lexemes rest) :
    Spells (.name name :: .mark .openParen :: .quoted literal :: .mark .closeParen :: lexemes)
      (Prepared.construct name literal ++ rest) := by
  obtain ⟨c, more, rfl, hstart, hmore⟩ := hn.eq_cons
  rw [Prepared.construct_append]
  exact .name hstart hmore (Lexeme.endsName_mark _ _)
    (.mark .openParen (.quoted hq (.mark .closeParen hs)))

/-- The call of a constructor on a literal, with the calls of methods behind it. -/
def Derivation.Operand.constructed (name literal : Text) (methods : Methods) : Operand :=
  .mk (.function name (.cons (.text literal) .nil)) methods

namespace Derivation.Operand

variable (name literal : Text) (methods : Methods)

theorem leaves_constructed : (constructed name literal methods).leaves =
    .name name :: .mark .openParen :: .quoted literal :: .mark .closeParen :: methods.leaves := rfl

theorem nesting_constructed : (constructed name literal methods).nesting = methods.nesting := by
  simp [constructed, Operand.nesting, Primary.nesting, Arguments.nesting, Argument.nesting]

theorem denote_constructed : (constructed name literal methods).denote =
    Call.function name [.text literal] >>= methods.denote := rfl

end Derivation.Operand

/-- The call of a constructor on its literal, with method calls behind it. -/
theorem evaluatePrepared_construct {name literal rest : Text} (hn : IsConstructor name)
    (hq : '"' ∉ literal) {methods : Methods} (hm : methods.nesting ≤ depthLimit)
    (hs : Spells methods.leaves rest) :
    evaluatePrepared (Prepared.construct name literal ++ rest) =
      (do methods.denote (← Call.function name [.text literal])) := by
  let f : Factor := .plain (.constructed name literal methods)
  have hn' : f.nesting ≤ depthLimit := by
    rwa [Factor.nesting, Operand.nesting_constructed]
  have hs' : Spells f.leaves (Prepared.construct name literal ++ rest) := by
    rw [Factor.leaves, Operand.leaves_constructed]
    exact spells_construct hn hq hs
  exact evaluatePrepared_factor hn' hs'

theorem Call.function_scalarConstructor (literal : Text) :
    Call.function Prepared.scalarConstructor [.text literal] =
      Quantity.ofScalar? (Scalar.ofLiteral literal) := rfl

theorem Call.function_vectorConstructor (literal : Text) :
    Call.function Prepared.vectorConstructor [.text literal] =
      Quantity.ofVec? (Vec.ofText literal) := rfl

theorem evaluatePrepared_construct_alone {name literal : Text} (hn : IsConstructor name)
    (hq : '"' ∉ literal) :
    evaluatePrepared (Prepared.construct name literal) = Call.function name [.text literal] := by
  have hm : Methods.nil.nesting ≤ depthLimit := Nat.zero_le _
  have h := evaluatePrepared_construct hn hq hm .nil
  rw [List.append_nil] at h
  rw [h]
  cases Call.function name [.text literal] <;> rfl

theorem denote_noArguments (name : Text) (q : Quantity) :
    (Methods.cons name .nil .nil).denote q = Call.method q name [] := by
  rw [Methods.denote, Arguments.denote]
  cases h : Call.method q name [] <;> simp [bind, Except.bind, h, Methods.denote]

/-- The call of a method without arguments. -/
theorem spells_noArguments {c : Char} {more : Text} (hc : Lexeme.isNameStart c = true)
    (hm : ∀ d ∈ more, Lexeme.isNameRest d = true) :
    Spells (Methods.cons (c :: more) .nil .nil).leaves ('.' :: (c :: more ++ "()".toList)) :=
  .mark .dot (.name hc hm (Lexeme.endsName_mark .openParen _)
    (.mark .openParen (.mark .closeParen .nil)))

/-- The digits of the integer that the called vector packs. -/
theorem evaluatePrepared_construct_int {name literal : Text} (hn : IsConstructor name)
    (hq : '"' ∉ literal) :
    evaluatePrepared (Prepared.construct name literal ++ ".Int()".toList) =
      (do Call.method (← Call.function name [.text literal]) "Int".toList []) := by
  have hs : Spells (Methods.cons "Int".toList .nil .nil).leaves ".Int()".toList :=
    @spells_noArguments 'I' "nt".toList rfl (List.all_eq_true.mp rfl)
  rw [evaluatePrepared_construct hn hq (by decide) hs]
  simp only [denote_noArguments]

/-! ## Groups that cannot be read -/

theorem not_spells_digit {c : Char} (hc : Text.isDigit c = true) (lexemes : List Lexeme)
    (rest : Text) : ¬Spells lexemes (c :: rest) := by
  have hblank : Text.isBlank c = false := Text.of_isDigit hc (by decide)
  have hname : Lexeme.isNameStart c = false := Text.of_isDigit hc (by decide)
  intro h
  cases h with
  | blank hb => rw [hblank] at hb; cases hb
  | mark m => cases m <;> revert hc <;> decide
  | quoted => revert hc; decide
  | name hn => rw [hname] at hn; cases hn

theorem not_spells_isDecimal {text : Text} (h : Literal.isDecimal text = true)
    (lexemes : List Lexeme) (rest : Text) : ¬Spells lexemes (text ++ rest) := by
  obtain ⟨d, more, rfl, hd⟩ := Literal.exists_digit_of_isDecimal h
  exact not_spells_digit hd lexemes _

theorem not_spells_mark (lexemes : List Lexeme) (rest : Text) : ¬Spells lexemes ('#' :: rest) := by
  intro h
  generalize hc : '#' = c at h
  cases h with
  | blank hb => rw [← hc] at hb; exact absurd hb (by decide)
  | mark m => cases m <;> cases hc
  | quoted => cases hc
  | name hn => rw [← hc] at hn; exact absurd hn (by decide)

theorem not_spells_isHex {text : Text} (h : Literal.isHex text = true) (lexemes : List Lexeme)
    (rest : Text) : ¬Spells lexemes (text ++ rest) := by
  obtain ⟨digits, rfl, -⟩ := Literal.isHex_iff.mp h
  exact not_spells_mark lexemes _

/-- The items of a vector are no lexemes when they stand bare. -/
theorem not_spells_item {item : Text} (h : Literal.isItem item = true) (hne : item ≠ [])
    (lexemes : List Lexeme) (rest : Text) : ¬Spells lexemes (item ++ rest) := by
  simp only [Literal.isItem, Bool.or_eq_true] at h
  rcases h with (h | h) | h
  · exact absurd (List.isEmpty_iff.mp h) hne
  · exact not_spells_isHex h lexemes rest
  · cases hm : Text.dropMark '-' item with
    | mk negative body =>
      rw [hm] at h
      rw [Decimal.text_eq_of_dropMark hm]
      cases negative with
      | true =>
        intro hs
        obtain ⟨_, -, hs⟩ := Spells.of_mark (m := .minus) hs
        exact not_spells_isDecimal h _ rest hs
      | false => exact not_spells_isDecimal h lexemes rest

/-- All that the text of a bracket group can begin with is a comma. -/
theorem comma_of_spells_group {group : Text} (h : IsGroup group) {lexemes : List Lexeme}
    {rest : Text} (hs : Spells lexemes (group ++ rest)) :
    ∃ tail, lexemes = .mark .comma :: tail := by
  have hj : Text.join [','] (Literal.items group) = group := Text.join_splitWhen ',' group
  have hi := h.items
  generalize Literal.items group = items at hj hi
  cases items with
  | nil => exact absurd hj.symm h.ne_nil
  | cons item items =>
    by_cases hne : item = []
    · cases items with
      | nil => rw [hne] at hj; exact absurd hj.symm h.ne_nil
      | cons item' items =>
        rw [hne, Text.join_cons _ _ (List.cons_ne_nil item' items)] at hj
        rw [← hj] at hs
        obtain ⟨tail, he, -⟩ := Spells.of_mark (m := .comma) hs
        exact ⟨tail, he⟩
    · refine absurd hs ?_
      have hitem := not_spells_item (hi item List.mem_cons_self) hne lexemes
      rw [← hj]
      cases items with
      | nil => rw [Text.join_singleton]; exact hitem rest
      | cons item' items =>
        rw [Text.join_cons _ _ (List.cons_ne_nil item' items), List.append_assoc]
        exact hitem _

/-- A bare bracket group has no value: nothing that has one begins with a comma. -/
theorem evaluatePrepared_group_ne {group : Text} (h : IsGroup group) (q : Quantity) :
    evaluatePrepared group ≠ .ok q := by
  intro hq
  obtain ⟨e, -, hs, -⟩ := spells_of_evaluatePrepared hq
  obtain ⟨l, tail, hl, ho⟩ := e.leaves_eq
  rw [← List.append_nil group] at hs
  obtain ⟨tail', hc⟩ := comma_of_spells_group h hs
  rw [hl] at hc
  cases hc
  rcases ho with ho | ho
  · cases ho
  · exact ho

/-! ## The value of a bracket group -/

theorem quote_not_mem_brackets {group : Text} (h : IsGroup group) :
    '"' ∉ '[' :: (group ++ [']']) := by
  simp only [List.mem_cons, List.mem_append, List.not_mem_nil, or_false, not_or]
  exact ⟨by decide, fun hm => (h.isItemChar _ hm).not_mem (by decide), by decide⟩

theorem Prepared.group_of_ok {inner : Text} {v : Vec}
    (h : Vec.ofText ('[' :: (inner ++ [']'])) = .ok v) :
    group inner = construct vectorConstructor ('[' :: (inner ++ [']'])) := by
  simp [group, h]

theorem Prepared.group_of_error {inner : Text} {e : NumberError}
    (h : Vec.ofText ('[' :: (inner ++ [']'])) = .error e) : group inner = inner := by
  simp [group, h]

theorem evaluate_brackets {text group : Text} (h : IsGroup group)
    (ht : Text.stripped text = '[' :: (group ++ [']'])) {v : Vec}
    (hv : Vec.ofText ('[' :: (group ++ [']'])) = .ok v) : evaluate text = .ok (.vector v) := by
  rw [evaluate, prepare_brackets h ht, Prepared.group_of_ok hv,
    evaluatePrepared_construct_alone (.inr rfl) (quote_not_mem_brackets h),
    Call.function_vectorConstructor, hv]
  rfl

theorem evaluate_brackets_int {text group : Text} (h : IsGroup group)
    (ht : Text.stripped text = '[' :: (group ++ ']' :: ".Int()".toList)) {v : Vec}
    (hv : Vec.ofText ('[' :: (group ++ [']'])) = .ok v) :
    evaluate text = .ok (.integer v.toInt) := by
  rw [evaluate, prepare_brackets_int h ht, Prepared.group_of_ok hv,
    evaluatePrepared_construct_int (.inr rfl) (quote_not_mem_brackets h),
    Call.function_vectorConstructor, hv]
  rfl

end BinaryPoint
