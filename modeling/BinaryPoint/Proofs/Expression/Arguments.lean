import BinaryPoint.Proofs.Expression.SignsApart
import BinaryPoint.Proofs.Expression.Endings

/-!
# Calls with arguments of any form

Arguments that are expressions, with a comma between each two. If every comma is a seam, the
prepared text of the call is that of its arguments one by one, each behind its comma. The commas
that are kept count its arguments, and so it has a value only if there are two of them.

* `Valued.prepare_seam`: one argument in front of a comma.
* `prepare_arguments`: all of them, by induction from the last.
* `evaluate_argumentsCall`: the value of the area function on any number of arguments of any kind,
  if all commas are kept.
* `keepsCommas_of_evaluate`: all commas of three arguments are kept in a call that has a value.
-/
namespace BinaryPoint

open BinaryPoint.Derivation
open Lexeme (Spells)
open Token (cut depthAfter)

/-! ## One argument -/

namespace Valued

variable (a : Valued)

/-- The text of a valued expression without its blanks. -/
def stripped : Text := Text.stripped a.text

theorem depth_stripped : a.stripped.foldl depthAfter 0 = 0 := foldl_depthAfter_of_evaluate a.alone 0

theorem shaped : ∀ t ∈ cut 0 [] [] a.stripped, Shaped t.text := shaped_of_evaluate a.alone

theorem cut_stripped_ne_nil : cut 0 [] [] a.stripped ≠ [] := by
  intro h
  obtain ⟨e, -, hs, -⟩ := a.exists_expression
  obtain ⟨l, tail, hl, -⟩ := e.leaves_eq
  rw [prepare_eq, preparedBehind, ← stripped, h, hl] at hs
  cases hs

theorem stripped_ne_nil : a.stripped ≠ [] := fun h => a.cut_stripped_ne_nil (by rw [h]; rfl)

/-- A token with a bracket is a vector literal. -/
theorem isVector_of_mem {t : Token} (ht : t ∈ cut 0 [] [] a.stripped) {c : Char} (hc : c ∈ t.text)
    (hp : ¬IsPlain c) : Literal.isVector t.text = true :=
  (a.shaped t ht).resolve_left fun h => hp (h c hc)

theorem isVector_last (hb : a.stripped.getLast? = some ']') {tokens : List Token} {l : Text}
    (hn : l ≠ []) (hc : cut 0 [] [] a.stripped = tokens ++ [⟨.run, l⟩]) :
    Literal.isVector l = true := by
  have hf := Token.flatMap_text_cut a.stripped 0 []
  rw [hc, List.flatMap_append, List.flatMap_singleton] at hf
  rw [← List.nil_append a.stripped, ← List.reverse_nil, ← hf, List.getLast?_append_of_ne_nil _ hn] at hb
  exact a.isVector_of_mem (t := ⟨.run, l⟩) (by rw [hc]; simp) (List.mem_of_getLast? hb)
    (by unfold IsPlain; decide)

theorem leads : Leads (cut 0 [] [] a.stripped) := fun t ht hb =>
  a.isVector_of_mem (List.mem_of_head? ht) (List.mem_of_head? hb) (by unfold IsPlain; decide)

theorem prepare_ne_nil : preparedBehind none a.stripped ≠ [] := by
  intro h
  obtain ⟨e, -, hs, -⟩ := a.exists_expression
  obtain ⟨l, tail, hl, -⟩ := e.leaves_eq
  rw [prepare_eq, ← stripped, h, hl] at hs
  cases hs

end Valued

/-- The second text begins as the first one does, but for what its first token goes on with: it is
a literal still, and something is left of it in both or in neither. -/
structure BeginsLike (text longer : Text) : Prop where
  leads : Leads (cut 0 [] [] longer)
  firstPiece : firstPiece longer = [] ↔ firstPiece text = []

theorem beginsLike_of_head? {text longer : Text} (hl : Leads (cut 0 [] [] text))
    (h : (cut 0 [] [] longer).head? = (cut 0 [] [] text).head?) : BeginsLike text longer where
  leads := by rwa [Leads, h]
  firstPiece := by rw [BinaryPoint.firstPiece, BinaryPoint.firstPiece, h]

namespace Valued

variable (a : Valued)

/-- What a comma keeps apart is prepared apart. -/
theorem prepare_seam {text : Text} (hs : Seam a.stripped text) (hne : text ≠ [])
    (hl : Leads (cut 0 [] [] text)) : BeginsLike a.stripped (a.stripped ++ ',' :: text) ∧
      ∀ before, preparedBehind before (a.stripped ++ ',' :: text) = preparedBehind before a.stripped ++
        (commaBetween (lastPiece a.stripped) (firstPiece text) ++
          preparedBehind (some Token.comma) text) := by
  cases hs with
  | closed hb ht =>
    obtain ⟨tokens, hc, ha⟩ := cut_closed a.depth_stripped hb (',' :: text)
    have hlast : lastPiece a.stripped = [')'] := by
      rw [lastPiece, ha, List.getLast?_concat]; rfl
    have hcomma : commaBetween (lastPiece a.stripped) (firstPiece text) = [','] :=
      commaBetween_of_keeps ⟨by rw [hlast]; exact List.cons_ne_nil _ _, firstPiece_ne_nil hne ht⟩
    refine ⟨beginsLike_of_head? a.leads (by rw [hc, ha]; cases tokens <;> rfl), fun before => ?_⟩
    rw [hcomma]
    exact prepare_closed a.depth_stripped hb ht before
  | spliced hb ht =>
    obtain ⟨tokens, l, ha, hc, hn⟩ := Token.cut_last_run a.depth_stripped
    have hln : l ≠ [] := fun h => hn h hb
    rw [Token.closeRun_of_ne_nil (by simpa using hln), List.reverse_reverse] at ha
    have hvl := a.isVector_last hb hln ha
    obtain ⟨r, rest, hct, hvr, hca⟩ := cut_spliced hc ht hl
    obtain ⟨hv, happend⟩ := Prepared.vector_append hvl hvr
    refine ⟨?_, prepare_spliced hvl hvr ha hct hca⟩
    cases tokens with
    | cons => exact beginsLike_of_head? a.leads (by rw [ha, hca]; rfl)
    | nil =>
      -- the argument is one literal, of which something is left, and so there is with its comma
      have hp : Prepared.vector l ≠ [] := by
        have hne := a.prepare_ne_nil
        rw [preparedBehind, ha] at hne
        simpa [Prepared.collect, Prepared.piece_of_isVector hvl] using hne
      refine ⟨fun t hm _ => ?_, ?_⟩
      · rw [hca] at hm; cases hm; exact hv
      · have hlong : firstPiece (a.stripped ++ ',' :: text) = Prepared.vector (l ++ ',' :: r) := by
          rw [firstPiece, hca, ← Prepared.piece_of_isVector hv]; rfl
        have hshort : firstPiece a.stripped = Prepared.vector l := by
          rw [firstPiece, ha, ← Prepared.piece_of_isVector hvl]; rfl
        rw [hlong, hshort, happend]
        simp [hp]

end Valued

/-! ## Arguments -/

/-- Arguments without blanks up to the parenthesis that closes them. -/
def argumentsText (args : List Valued) : Text := Text.join [','] (args.map Valued.stripped) ++ [')']

theorem argumentsText_singleton (a : Valued) : argumentsText [a] = a.stripped ++ [')'] := by
  rw [argumentsText, List.map_singleton, Text.join_singleton]

theorem argumentsText_cons (a b : Valued) (args : List Valued) : argumentsText (a :: b :: args) =
    a.stripped ++ ',' :: argumentsText (b :: args) := by
  rw [argumentsText, Text.join_map_cons, List.append_assoc, argumentsText]
  rfl

/-- Arguments begin as the first of them does, up to what ends it. -/
theorem argumentsText_eq (a : Valued) (args : List Valued) : ∃ c rest,
    argumentsText (a :: args) = a.stripped ++ c :: rest ∧ Text.isDigit c = false := by
  cases args with
  | nil => exact ⟨')', [], argumentsText_singleton a, rfl⟩
  | cons b args => exact ⟨',', argumentsText (b :: args), argumentsText_cons a b args, rfl⟩

theorem argumentsText_ne_nil (a : Valued) (args : List Valued) : argumentsText (a :: args) ≠ [] := by
  rw [argumentsText]
  exact List.append_ne_nil_of_right_ne_nil _ (List.cons_ne_nil _ _)

theorem head?_argumentsText (a : Valued) (args : List Valued) :
    (argumentsText (a :: args)).head? = a.stripped.head? := by
  obtain ⟨c, rest, hc, -⟩ := argumentsText_eq a args
  rw [hc, List.head?_append_of_ne_nil _ a.stripped_ne_nil]

theorem cut_last (a : Valued) :
    cut 0 [] [] (a.stripped ++ [')']) = cut 0 [] [] a.stripped ++ [Token.closeParen] := by
  have hc : Token.standsAlone (a.stripped.foldl depthAfter 0) ')' ([] : Text).head? =
      some .operator := Token.standsAlone_operator (by decide) _ _
  exact Token.cut_append _ hc []

theorem Valued.prepare_last (a : Valued) (before : Option Token) :
    preparedBehind before (a.stripped ++ [')']) = preparedBehind before a.stripped ++ [')'] := by
  have hnone : ∀ before, Prepared.isSign before Token.closeParen = false := fun _ => rfl
  rw [preparedBehind, cut_last, Prepared.collect_append hnone rfl, List.flatten_append]
  rfl

/-- The prepared text behind the first argument of a call. -/
def preparedMore : Valued → List Valued → Text
  | _, [] => [')']
  | a, b :: args => commaBetween (lastPiece a.stripped) (firstPiece b.stripped) ++
      (preparedBehind (some Token.comma) b.stripped ++ preparedMore b args)

/-- All commas between the arguments are seams. -/
def Apart (args : List Valued) : Prop := args.IsChain fun a b => Seam a.stripped b.stripped

/-- All commas between the arguments are in the prepared text. -/
def KeepsCommas (args : List Valued) : Prop :=
  args.IsChain fun a b => KeepsComma a.stripped b.stripped

/-- The induction is along the arguments, from the last: what is behind a comma has to be known. -/
theorem prepare_arguments : ∀ (a : Valued) (args : List Valued), Apart (a :: args) →
    BeginsLike a.stripped (argumentsText (a :: args)) ∧
      ∀ before, preparedBehind before (argumentsText (a :: args)) =
        preparedBehind before a.stripped ++ preparedMore a args
  | a, [], _ => by
    rw [argumentsText_singleton]
    refine ⟨beginsLike_of_head? a.leads ?_, a.prepare_last⟩
    rw [cut_last, List.head?_append_of_ne_nil _ a.cut_stripped_ne_nil]
  | a, b :: args, h => by
    obtain ⟨hab, h⟩ := List.isChain_cons_cons.mp h
    obtain ⟨hb, ih⟩ := prepare_arguments b args h
    have hs := hab.of_head (head?_argumentsText b args).symm
    obtain ⟨hl, hp⟩ := a.prepare_seam hs (argumentsText_ne_nil b args) hb.leads
    rw [argumentsText_cons]
    refine ⟨hl, fun before => ?_⟩
    rw [hp, ih, preparedMore, commaBetween_congr _ hb.firstPiece]

theorem preparedMore_of_keepsCommas : ∀ {a : Valued} {args : List Valued}, KeepsCommas (a :: args) →
    preparedMore a args =
      args.flatMap (fun b => ',' :: preparedBehind (some Token.comma) b.stripped) ++ [')']
  | _, [], _ => rfl
  | a, b :: args, h => by
    obtain ⟨hab, h⟩ := List.isChain_cons_cons.mp h
    rw [preparedMore, commaBetween_of_keeps hab, preparedMore_of_keepsCommas h]
    simp

/-! ## The call -/

theorem Valued.exists_prepared (a : Valued) : ∃ p : PreparedArgument,
    p.text = prepare a.text ∧ p.value = .ok a.value := by
  obtain ⟨e, hn, hs, hd⟩ := a.exists_expression
  exact ⟨⟨prepare a.text, e, hs, hn⟩, rfl, hd⟩

theorem exists_prepared_arguments : ∀ args : List Valued, ∃ ps : List PreparedArgument,
    ps.map PreparedArgument.text = args.map (fun b => preparedBehind (some Token.comma) b.stripped) ∧
      ps.map PreparedArgument.value = args.map fun b => evaluate (signApart b.text)
  | [] => ⟨[], rfl, rfl⟩
  | b :: args => by
    obtain ⟨e, hn, hs, hd⟩ := b.exists_expression_behind
    obtain ⟨ps, hts, hvs⟩ := exists_prepared_arguments args
    refine ⟨⟨_, e, hs, hn⟩ :: ps, ?_, ?_⟩
    · rw [List.map_cons, List.map_cons, hts]; rfl
    · rw [List.map_cons, List.map_cons, hvs, ← hd]; rfl

/-- The call of the area function on arguments. -/
def argumentsCall (name : AreaName) (args : List Valued) : Text :=
  name.text ++ '(' :: (Text.join [','] (args.map Valued.text) ++ [')'])

theorem stripped_argumentsCall (name : AreaName) (args : List Valued) :
    Text.stripped (argumentsCall name args) = name.text ++ '(' :: argumentsText args := by
  have ht : argumentsCall name args =
      name.text ++ (['('] ++ (Text.join [','] (args.map Valued.text) ++ [')'])) := rfl
  rw [ht, Text.stripped_append, Text.stripped_append, Text.stripped_append, name.stripped_text,
    Text.stripped_join, List.map_map]
  rfl

theorem prepare_argumentsCall (name : AreaName) {a : Valued} {args : List Valued}
    (h : Apart (a :: args)) : prepare (argumentsCall name (a :: args)) =
      name.text ++ '(' :: (prepare a.text ++ preparedMore a args) := by
  rw [name.prepare_call (stripped_argumentsCall name (a :: args)), (prepare_arguments a args h).2]
  rfl

/-- The arguments behind the first have the values that they have with the decimals of their signs
in parentheses. -/
theorem evaluate_argumentsCall (name : AreaName) {a : Valued} {args : List Valued}
    (h : Apart (a :: args)) (hk : KeepsCommas (a :: args)) :
    evaluate (argumentsCall name (a :: args)) = (do
      let more ← args.mapM fun b => .quantity <$> evaluate (signApart b.text)
      Call.area AreaName.area (.quantity a.value :: more)) := by
  obtain ⟨p, hpt, hpv⟩ := a.exists_prepared
  obtain ⟨ps, ht, hv⟩ := exists_prepared_arguments args
  have htext : prepare a.text ++ preparedMore a args =
      Text.join [','] ((p :: ps).map PreparedArgument.text) ++ [')'] := by
    rw [preparedMore_of_keepsCommas hk, List.map_cons, hpt, ht, Text.join_cons_flatMap,
      List.flatMap_map, List.append_assoc]
    rfl
  have hmore : (ps.mapM fun p => Argument.quantity <$> p.value) =
      args.mapM fun b => .quantity <$> evaluate (signApart b.text) := by
    have hps : (ps.mapM fun p => Argument.quantity <$> p.value) =
        (ps.map PreparedArgument.value).mapM fun v => .quantity <$> v := List.mapM_map.symm
    rw [hps, hv, List.mapM_map]
    rfl
  rw [evaluate, prepare_argumentsCall name h, htext, name.evaluatePrepared_call, List.mapM_cons, hpv,
    hmore]
  simp only [bind_assoc]
  rfl

/-! ## Commas that are not kept -/

/-- What is behind the first argument has as many commas as are kept. -/
theorem exists_lexemes_more : ∀ (a : Valued) (args : List Valued), ∃ lexemes : List Lexeme,
    Spells lexemes (preparedMore a args) ∧ outerCommas 0 lexemes ≤ args.length ∧
      (outerCommas 0 lexemes = args.length → KeepsCommas (a :: args))
  | a, [] => ⟨[.mark .closeParen], .mark .closeParen .nil, Nat.le_refl 0,
      fun _ => List.isChain_singleton a⟩
  | a, b :: args => by
    obtain ⟨e, -, hs, -⟩ := b.exists_expression_behind
    obtain ⟨lexemes, hl, hle, hkeeps⟩ := exists_lexemes_more b args
    have hcount := e.hasCommas.outer lexemes
    have hb : Spells (e.leaves ++ lexemes)
        (preparedBehind (some Token.comma) b.stripped ++ preparedMore b args) :=
      hs.append_of_closes (by simp [e.getLast?_leaves]) hl
    rw [Nat.zero_add] at hcount
    rw [preparedMore, List.length_cons]
    by_cases hk : KeepsComma a.stripped b.stripped
    · refine ⟨.mark .comma :: (e.leaves ++ lexemes), ?_, ?_, fun h => ?_⟩
      · rw [commaBetween_of_keeps hk]
        exact .mark .comma hb
      · rw [outerCommas, hcount]
        omega
      · rw [outerCommas, hcount] at h
        exact List.isChain_cons_cons.mpr ⟨hk, hkeeps (by omega)⟩
    · refine ⟨e.leaves ++ lexemes, ?_, by omega, fun h => by omega⟩
      rw [commaBetween_of_not_keeps hk]
      exact hb

/-- A call of three arguments that has a value keeps its two commas. -/
theorem keepsCommas_of_evaluate (name : AreaName) {a : Valued} {args : List Valued}
    (h : Apart (a :: args)) (hlen : args.length = 2) {q : Quantity}
    (he : evaluate (argumentsCall name (a :: args)) = .ok q) : KeepsCommas (a :: args) := by
  rw [evaluate, prepare_argumentsCall name h] at he
  obtain ⟨e, -, hs, -⟩ := a.exists_expression
  obtain ⟨lexemes, hl, -, hkeeps⟩ := exists_lexemes_more a args
  have hcount := name.outerCommas_of_evaluatePrepared he
    (hs.append_of_closes (by simp [e.getLast?_leaves]) hl)
  rw [e.hasCommas.outer, Nat.zero_add] at hcount
  exact hkeeps (hcount.trans hlen.symm)

end BinaryPoint
