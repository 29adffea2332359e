import BinaryPoint.Proofs.Expression.Arguments
import BinaryPoint.Proofs.Expression.Endings

/-!
# Areas of arguments of any form

The commas of a call that has a value are seams: an argument ends with a literal or a closing
parenthesis, a literal goes on with its comma only to another bracket group, and behind a
parenthesis the run of the comma is read as it stands, where no literal can be.

* `sides_of_comma`: what is beside a comma of an expression that has a value.
* `seams_of_evaluate`: the commas between arguments, by induction from the first.
* `evaluate_area_arguments`: the area of three arguments, and the error of three that are not kept
  apart, or whose commas are not kept.
-/
namespace BinaryPoint

open Lexeme (Spells)
open Token (cut)

/-! ## Commas of a call that has a value -/

section
variable {text : Text} {q : Quantity} (h : evaluate text = .ok q) {tokens more : List Token}
include h

/-- Behind a vector literal a run goes on with another bracket group. -/
theorem head_of_run {x l r : Text}
    (ht : Token.ofText text = tokens ++ ⟨.run, x ++ (l ++ ',' :: r)⟩ :: more)
    (hv : Literal.isVector l = true) : r.head? = some '[' := by
  obtain ⟨interior, hi⟩ := Literal.exists_interior hv
  have hrun : x ++ (l ++ ',' :: r) = (x ++ '[' :: interior) ++ ']' :: ',' :: r := by
    simp [Literal.eq_of_interior? hi]
  rw [hrun] at ht
  have hk := shaped_of_evaluate h ⟨.run, (x ++ '[' :: interior) ++ ']' :: ',' :: r⟩ (by rw [ht]; simp)
  exact head_of_isVector (hk.resolve_left fun hp => hp '[' (by simp) (by decide))

/-- Any other run with a comma is read as it stands, so it has no literal before the comma or
behind it. -/
theorem beginsNone_of_run {l r : Text} (ht : Token.ofText text = tokens ++ ⟨.run, l ++ ',' :: r⟩ :: more)
    (hl : l = [] ∨ Literal.classify l ≠ .other) (hv : Literal.isVector l = false) :
    l = [] ∧ Literal.BeginsNone r := by
  have hplain : ∀ c ∈ l ++ ',' :: r, IsPlain c := by
    refine (shaped_of_evaluate h ⟨.run, l ++ ',' :: r⟩ (by rw [ht]; simp)).resolve_right fun hk => ?_
    obtain ⟨interior, hi⟩ := Literal.exists_interior hk
    have he := Literal.eq_of_interior? hi
    cases l with
    | nil => cases he
    | cons c l =>
      have hm : '[' ∈ c :: l := by rw [(List.cons.inj he).1]; exact List.mem_cons_self
      have hv' := Literal.isVector_of_bracket (hl.resolve_left (List.cons_ne_nil c l)) hm
      rw [hv] at hv'; cases hv'
  have hc : Literal.classify (l ++ ',' :: r) = .other :=
    Literal.classify_of_comma (by simp) fun hm => hplain _ hm (by decide)
  obtain ⟨lexemes, hs, -⟩ := other_of_evaluate h ht hc
  rw [List.append_assoc, List.cons_append] at hs
  obtain rfl : l = [] := hl.resolve_right fun hl => (Literal.isHex_or_isDecimal hl hv).elim
    (fun h => not_spells_isHex h _ _ hs) fun h => not_spells_isDecimal h _ _ hs
  refine ⟨rfl, fun c hm => ?_⟩
  obtain ⟨r, rfl⟩ := List.head?_eq_some_iff.mp hm
  obtain ⟨tail, -, hs⟩ := Spells.of_mark (m := .comma) hs
  refine ⟨?_, ?_, Bool.eq_false_iff.mpr fun hd => not_spells_digit hd _ _ hs⟩
  · rintro rfl; exact hplain '[' (by simp) (by decide)
  · rintro rfl; exact not_spells_mark _ _ hs

/-- What is beside a comma of an expression that has a value: bracket groups on both sides, or a
run of the comma that no literal begins or follows. -/
theorem sides_of_comma {x l rest : Text}
    (ht : Token.ofText text = tokens ++ cut 0 (',' :: (l.reverse ++ x)) [] rest)
    (hl : l = [] ∨ Literal.classify l ≠ .other) (hx : x = [] ∨ Literal.isVector l = true) :
    (Literal.isVector l = true ∧ rest.head? = some '[') ∨ (l = [] ∧ Literal.BeginsNone rest) := by
  obtain ⟨r, after, more, rfl, hr, -, hcomma⟩ := Token.cut_comma rest 0
  rw [hcomma, List.reverse_append, List.reverse_reverse, List.append_assoc] at ht
  cases hv : Literal.isVector l with
  | true => exact .inl ⟨rfl, by rw [List.head?_append, head_of_run h ht hv]; rfl⟩
  | false =>
    obtain rfl : x = [] := hx.resolve_right (by rw [hv]; nofun)
    obtain ⟨hn, hb⟩ := beginsNone_of_run h ht hl hv
    refine .inr ⟨hn, fun c hm => ?_⟩
    cases r with
    | nil => exact Token.not_literal_of_standsAlone (hr rfl c hm)
    | cons => exact hb c hm

end

/-- A run behind which an argument ends is a literal. -/
theorem Valued.classify_last (a : Valued) {tokens : List Token} {l : Text}
    (hc : cut 0 [] [] a.stripped = tokens ++ [⟨.run, l⟩]) : Literal.classify l ≠ .other := by
  rcases closes_of_evaluate a.alone hc with ⟨-, h⟩ | h
  · exact h
  · cases h

/-- The run of a comma behind an argument, in a call that has a value, shows their seam. -/
theorem seam_of_evaluate {a : Valued} {text run rest : Text} {q : Quantity} (h : evaluate text = .ok q)
    {tokens : List Token} (ht : Token.ofText text = tokens ++ cut 0 run [] (a.stripped ++ ',' :: rest))
    (hr : run = [] ∨ ∃ before, Seam before a.stripped) :
    Seam a.stripped rest ∧ ∃ tokens run, Token.ofText text = tokens ++ cut 0 run [] rest := by
  rcases Token.exists_last_run a.depth_stripped with
    hone | ⟨front, token, l, hl, hk, -, hcut, hcomma⟩
  -- the argument is one literal, and it goes on with the run before it
  · rw [hone.comma, a.depth_stripped] at ht
    have hca : cut 0 [] [] a.stripped = [] ++ [⟨.run, a.stripped⟩] := by
      rw [hone.alone, List.append_nil, Token.closeRun_of_ne_nil (by simpa using a.stripped_ne_nil),
        List.reverse_reverse]
      rfl
    have hclass := a.classify_last hca
    have hx : run = [] ∨ Literal.isVector a.stripped = true := hr.imp_right fun ⟨before, hs⟩ => by
      cases hs with
      | closed _ ha => exact absurd (Literal.classify_of_head ha) hclass
      | spliced _ ha => exact Literal.isVector_of_bracket hclass (List.mem_of_head? ha)
    refine ⟨?_, tokens, _, ht⟩
    rcases sides_of_comma h ht (.inr hclass) hx with ⟨hv, hrest⟩ | ⟨hn, -⟩
    · exact .spliced (Literal.getLast?_of_isVector hv) hrest
    · exact absurd hn a.stripped_ne_nil
  · rw [hcomma, ← List.singleton_append, ← List.append_assoc, ← List.append_assoc] at ht
    have hca := hcut []
    refine ⟨?_, _, _, ht⟩
    have hclass : l = [] ∨ Literal.classify l ≠ .other := by
      by_cases hn : l = []
      · exact .inl hn
      · have hlast : cut 0 [] [] a.stripped = (cut 0 [] [] front ++ [token]) ++ [⟨.run, l⟩] := by
          rw [hca, Token.closeRun_of_ne_nil (by simpa using hn), List.reverse_reverse]
          simp
        exact .inr (a.classify_last hlast)
    rw [← List.append_nil l.reverse] at ht
    rcases sides_of_comma h ht hclass (.inl rfl) with ⟨hv, hrest⟩ | ⟨rfl, hrest⟩
    · have hn : l ≠ [] := by rintro rfl; cases hv
      refine .spliced ?_ hrest
      rw [hl, ← List.append_assoc, List.getLast?_append_of_ne_nil _ hn]
      exact Literal.getLast?_of_isVector hv
    · refine .closed ?_ hrest
      obtain rfl := (closes_of_evaluate a.alone hca).resolve_left fun h => hk h.1
      rw [hl]
      exact List.getLast?_concat

/-- The induction is along the arguments, from the first: a run may go on from one to the next. -/
theorem seams_of_evaluate {text : Text} {q : Quantity} (h : evaluate text = .ok q) :
    ∀ (a : Valued) (args : List Valued) {tokens : List Token} {run : Text},
      Token.ofText text = tokens ++ cut 0 run [] (argumentsText (a :: args)) →
        (run = [] ∨ ∃ before, Seam before a.stripped) →
          (a :: args).IsChain fun a b => Seam a.stripped b.stripped
  | a, [], _, _, _, _ => List.isChain_singleton a
  | a, b :: args, tokens, run, ht, hr => by
    rw [argumentsText_cons] at ht
    obtain ⟨hs, tokens', run', ht'⟩ := seam_of_evaluate h ht hr
    have hs := hs.of_head (head?_argumentsText b args)
    exact List.isChain_cons_cons.mpr ⟨hs, seams_of_evaluate h b args ht' (.inr ⟨_, hs⟩)⟩

theorem error_of_not_seams (name : AreaName) {a : Valued} {args : List Valued}
    (h : ¬(a :: args).IsChain fun a b => Seam a.stripped b.stripped) :
    ∃ e, evaluate (argumentsCall name (a :: args)) = .error e := by
  cases he : evaluate (argumentsCall name (a :: args)) with
  | error e => exact ⟨e, rfl⟩
  | ok q =>
    have ht : Token.ofText (argumentsCall name (a :: args)) =
        (name.tokens ++ [Token.openParen]) ++ cut 0 [] [] (argumentsText (a :: args)) := by
      rw [Token.ofText_eq, stripped_argumentsCall, name.cut_text, List.append_assoc]
      rfl
    exact absurd (seams_of_evaluate he a args ht (.inl rfl)) h

/-! ## Areas -/

/-- An argument that begins with no sign has its value behind a comma too. -/
theorem Valued.evaluate_signApart {b : Valued}
    (h : ∀ d rest, b.stripped = '-' :: d :: rest → Text.isDigit d = false) :
    evaluate (signApart b.text) = .ok b.value := by
  rw [signApart_of_not_folds fun t rest => not_folds_of_unsigned h]
  exact b.alone

/-- **Areas.** The call on three vectors, by either name, is their area or its error, whatever
their expressions look like, where the commas keep them apart; and it is an error where a comma
does not. A comma that keeps them apart may still be lost together with the empty groups beside it,
and then the call is an error too. If it is not lost, the only other change is to an argument that
begins with a minus and a decimal: behind a comma the minus negates the decimal only after its
methods are called, as if there were parentheses around the decimal. -/
theorem evaluate_area_arguments (name : AreaName) {a b c : Valued} {va vb vc : Vec}
    (ha : a.value = .vector va) (hb : b.value = .vector vb) (hc : c.value = .vector vc) :
    (CleanSeam a.stripped b.stripped → CleanSeam b.stripped c.stripped →
      evaluate (argumentsCall name [a, b, c]) = Quantity.ofScalar? (Vec.area va vb vc)) ∧
    (¬(Seam a.stripped b.stripped ∧ Seam b.stripped c.stripped) →
      ∃ e, evaluate (argumentsCall name [a, b, c]) = .error e) ∧
    (Seam a.stripped b.stripped → Seam b.stripped c.stripped →
      (KeepsComma a.stripped b.stripped ∧ KeepsComma b.stripped c.stripped →
        evaluate (argumentsCall name [a, b, c]) = (do
          let q ← evaluate (signApart b.text)
          let r ← evaluate (signApart c.text)
          Call.area AreaName.area [.quantity (.vector va), .quantity q, .quantity r])) ∧
      (¬(KeepsComma a.stripped b.stripped ∧ KeepsComma b.stripped c.stripped) →
        ∃ e, evaluate (argumentsCall name [a, b, c]) = .error e)) := by
  have apart (hab : Seam a.stripped b.stripped) (hbc : Seam b.stripped c.stripped) :
      Apart [a, b, c] := List.isChain_cons_cons.mpr ⟨hab, List.isChain_pair.mpr hbc⟩
  have value (hab : Seam a.stripped b.stripped) (hbc : Seam b.stripped c.stripped)
      (hk : KeepsComma a.stripped b.stripped ∧ KeepsComma b.stripped c.stripped) :
      evaluate (argumentsCall name [a, b, c]) = (do
        let q ← evaluate (signApart b.text)
        let r ← evaluate (signApart c.text)
        Call.area AreaName.area [.quantity (.vector va), .quantity q, .quantity r]) := by
    rw [evaluate_argumentsCall name (apart hab hbc)
      (List.isChain_cons_cons.mpr ⟨hk.1, List.isChain_pair.mpr hk.2⟩), ha]
    simp
  refine ⟨fun hab hbc => ?_, fun h => ?_, fun hab hbc => ⟨value hab hbc, fun hk => ?_⟩⟩
  · rw [value hab.seam hbc.seam ⟨hab.keepsComma a.stripped_ne_nil b.stripped_ne_nil,
      hbc.keepsComma b.stripped_ne_nil c.stripped_ne_nil⟩, Valued.evaluate_signApart hab.unsigned,
      Valued.evaluate_signApart hbc.unsigned, hb, hc]
    rfl
  · refine error_of_not_seams name fun hs => h ?_
    obtain ⟨hab, hbc⟩ := List.isChain_cons_cons.mp hs
    exact ⟨hab, (List.isChain_cons_cons.mp hbc).1⟩
  · cases he : evaluate (argumentsCall name [a, b, c]) with
    | error e => exact ⟨e, rfl⟩
    | ok q =>
      obtain ⟨hkab, hkbc⟩ := List.isChain_cons_cons.mp
        (keepsCommas_of_evaluate name (apart hab hbc) rfl he)
      exact absurd ⟨hkab, (List.isChain_cons_cons.mp hkbc).1⟩ hk

/-- Bracket groups meet at the first comma, and a sign follows the second. -/
theorem evaluate_area_product_method_negation :
    let a : Valued := ⟨['2', '*', '[', '1', ',', '2', ']'], .vector ⟨.ofWhole 2, [.ofWhole 4]⟩,
      by decide +kernel, by decide +kernel⟩
    let b : Valued := ⟨"[3,5].Add([1,1])".toList, .vector ⟨.ofWhole 4, [.ofWhole 6]⟩,
      by decide +kernel, by decide +kernel⟩
    let c : Valued := ⟨['-', '(', '[', '5', ',', '7', ']', ')'],
      .vector ⟨.ofWhole (-5), [.ofWhole (-7)]⟩, by decide +kernel, by decide +kernel⟩
    evaluate (argumentsCall .qualified [a, b, c]) = .ok (.scalar (.ofWhole 8)) := by
  intro a b c
  have hb : b.stripped = "[3,5].Add([1,1])".toList := by decide
  have hc : c.stripped = ['-', '(', '[', '5', ',', '7', ']', ')'] := by decide
  have hab : CleanSeam a.stripped b.stripped :=
    ⟨.spliced (by decide) (by decide), by decide, by decide, by rw [hb]; nofun⟩
  have hbc : CleanSeam b.stripped c.stripped :=
    ⟨.closed (by decide) (by rw [hc]; rintro _ ⟨⟩; decide), by decide, by decide,
      by rw [hc]; rintro _ _ ⟨⟩; decide⟩
  exact ((evaluate_area_arguments .qualified rfl rfl rfl).1 hab hbc).trans (by decide +kernel)

/-- Behind a comma the minus negates the sum, and within parentheses it is the sign of the literal. -/
example :
    evaluate "Area(([1,2]),-5.Add(3)*([30,4]),([5,7]))".toList = .ok (.scalar (.ofWhole 1069)) ∧
    evaluate "Area(([1,2]),(-5.Add(3)*([30,4])),([5,7]))".toList = .ok (.scalar (.ofWhole 265)) := by
  decide +kernel

/-- The comma behind a bracket group is a part of its run, and so the group is no literal there,
although the three arguments have an area. -/
theorem evaluate_area_group_before_parenthesis :
    let a : Valued := ⟨['[', '1', ',', '2', ']'], .vector ⟨.ofWhole 1, [.ofWhole 2]⟩,
      by decide +kernel, by decide +kernel⟩
    let b : Valued := ⟨['(', '[', '3', ',', '4', ']', ')'], .vector ⟨.ofWhole 3, [.ofWhole 4]⟩,
      by decide +kernel, by decide +kernel⟩
    let c : Valued := ⟨['[', '5', ',', '7', ']'], .vector ⟨.ofWhole 5, [.ofWhole 7]⟩,
      by decide +kernel, by decide +kernel⟩
    argumentsCall .plain [a, b, c] = "Area([1,2],([3,4]),[5,7])".toList ∧
      Quantity.ofScalar? (Vec.area ⟨.ofWhole 1, [.ofWhole 2]⟩ ⟨.ofWhole 3, [.ofWhole 4]⟩
        ⟨.ofWhole 5, [.ofWhole 7]⟩) = .ok (.scalar (.ofWhole (-2))) ∧
      evaluate (argumentsCall .plain [a, b, c]) = .error (.unexpectedChar '[' 5) :=
  ⟨rfl, by decide +kernel, by decide +kernel⟩

end BinaryPoint
