import BinaryPoint.Proofs.Expression.Brackets
import BinaryPoint.Proofs.Expression.Precedence

/-!
# Methods that do what operators do

The operations have methods of their names, in any case of letters. A chain of calls of such
methods on a parenthesised operand has the value of a plain fold, without precedence: each call
applies its operation to the value of the chain before it and to its argument, and the first
error in that order is the error of the chain.

* `prepare_calls`: the prepared text of a chain.
* `exists_methods`: the derivation of its calls, which denotes the fold.
* `evaluate_calls`: the value of a chain, and of one call as that of an operator.
-/
namespace BinaryPoint

open BinaryPoint.Derivation
open Lexeme (Spells)

/-! ## Names in any case of letters -/

theorem Text.eq_toLower_or_toUpper (c : Char) : c = c.toLower ∨ c = c.toLower.toUpper := by
  by_cases h : 65 ≤ c.toNat ∧ c.toNat ≤ 90
  · obtain ⟨h1, h2⟩ := h
    have hc : c = Char.ofNat c.toNat := (Char.ofNat_toNat c).symm
    right
    rw [hc]; interval_cases c.toNat <;> decide
  · have hc : c.toLower = c := dif_neg h
    exact .inl hc.symm

/-- What small letters and their capitals satisfy. -/
@[elab_as_elim] theorem Text.of_toLower_mem {motive : Char → Prop} [DecidablePred motive]
    {c : Char} {letters : Text} (h : c.toLower ∈ letters)
    (both : letters.all (fun d => motive d ∧ motive d.toUpper) = true) : motive c := by
  have hb := of_decide_eq_true (List.all_eq_true.mp both _ h)
  rcases Text.eq_toLower_or_toUpper c with hc | hc
  · rw [hc]; exact hb.1
  · rw [hc]; exact hb.2

/-! ## One call -/

/-- The call of the method of an operation, by its name in any case of letters. -/
structure MethodCall where
  operation : Operation
  name : Text
  argument : Valued
  named : Text.sameLetters name operation.name = true

namespace MethodCall

/-- The call as it is written behind its receiver. -/
def text (call : MethodCall) : Text :=
  '.' :: (call.name ++ '(' :: (call.argument.text ++ [')']))

theorem lower_name (call : MethodCall) :
    Text.lower call.name = Text.lower call.operation.name := by
  simpa [Text.sameLetters] using call.named

theorem lookup_methods (call : MethodCall) :
    Call.methods.lookup (Text.lower call.name) = some (.operation call.operation) := by
  rw [call.lower_name]
  cases call.operation <;> decide

/-- What each character of a name satisfies: the names of the operations have no other letters. -/
@[elab_as_elim] theorem of_mem_name {motive : Char → Prop} [DecidablePred motive]
    {call : MethodCall} {c : Char} (h : c ∈ call.name)
    (both : "abcdeilmprstuvy".toList.all (fun d => motive d ∧ motive d.toUpper) = true) :
    motive c := by
  have hm : c.toLower ∈ Text.lower call.operation.name := by
    rw [← call.lower_name]; exact List.mem_map_of_mem h
  have hs : Text.lower call.operation.name ⊆ "abcdeilmprstuvy".toList := by
    cases call.operation <;> decide
  exact Text.of_toLower_mem (hs hm) both

theorem name_ne_nil (call : MethodCall) : call.name ≠ [] := by
  intro h
  have hl := call.lower_name
  rw [h] at hl
  cases hop : call.operation <;> rw [hop] at hl <;> cases hl

theorem spells_name (call : MethodCall) {lexemes : List Lexeme} {text : Text}
    (h : Spells lexemes text) (he : Lexeme.EndsName text) :
    Spells (.name call.name :: lexemes) (call.name ++ text) := by
  have hstart : ∀ c ∈ call.name, Lexeme.isNameStart c = true := fun c hc => of_mem_name hc (by decide)
  obtain ⟨c, more, hn⟩ := List.exists_cons_of_ne_nil call.name_ne_nil
  rw [hn] at hstart ⊢
  exact .name (hstart c List.mem_cons_self)
    (fun d hd => Lexeme.isNameRest_of_isNameStart (hstart d (List.mem_cons_of_mem c hd))) he h

/-- The method does what the operator does, and is refused for integers only. -/
theorem method_eq_apply (call : MethodCall) {receiver : Quantity}
    (h : ∀ n, receiver ≠ .integer n) (q : Quantity) :
    Call.method receiver call.name [.quantity q] = Quantity.apply call.operation receiver q := by
  unfold Call.method
  rw [call.lookup_methods]
  cases receiver with
  | scalar s => rfl
  | vector v => rfl
  | integer n => exact absurd rfl (h n)

end MethodCall

/-- No operation has an integer as its result. -/
theorem Quantity.apply_ne_integer {op : Operation} {a b q : Quantity}
    (h : Quantity.apply op a b = .ok q) (n : Int) : q ≠ .integer n := by
  rintro rfl
  unfold Quantity.apply at h
  split at h
  · unfold ofScalar? at h; split at h <;> cases h
  · unfold ofVec? at h; split at h <;> cases h
  · unfold ofVec? at h; split at h <;> cases h
  · unfold ofVec? at h; split at h <;> cases h
  · cases h
  · cases h

/-! ## The derivation of calls -/

/-- The values of calls on a receiver, one after the other. -/
def applyCalls (receiver : Quantity) (calls : List MethodCall) : Except EvalError Quantity :=
  calls.foldlM (fun left call => Quantity.apply call.operation left call.argument.value) receiver

/-- The prepared text of calls. -/
def preparedCalls (calls : List MethodCall) : Text :=
  calls.flatMap fun call =>
    '.' :: (call.name ++ '(' :: (prepare call.argument.text ++ [')']))

theorem exists_methods : ∀ calls : List MethodCall, ∃ ms : Methods,
    Spells ms.leaves (preparedCalls calls) ∧ ms.nesting ≤ depthLimit ∧
      ∀ receiver : Quantity, (∀ n, receiver ≠ .integer n) →
        ms.denote receiver = applyCalls receiver calls
  | [] => ⟨.nil, .nil, Nat.zero_le _, fun _ _ => rfl⟩
  | call :: calls => by
    obtain ⟨ms, hs, hn, hd⟩ := exists_methods calls
    obtain ⟨e, he, hes, hed⟩ := call.argument.exists_expression
    refine ⟨.cons call.name (.cons (.value e) .nil) ms, ?_, ?_, fun receiver hr => ?_⟩
    · have ht : preparedCalls (call :: calls) = '.' :: (call.name ++ '(' ::
          (prepare call.argument.text ++ ')' :: preparedCalls calls)) := by
        simp [preparedCalls]
      have hclose : Spells (e.leaves ++ .mark .closeParen :: ms.leaves)
          (prepare call.argument.text ++ ')' :: preparedCalls calls) :=
        hes.append (.mark .closeParen hs) (Lexeme.endsName_mark .closeParen _)
      have hname := call.spells_name (.mark .openParen hclose) (Lexeme.endsName_mark .openParen _)
      have hl : (Methods.cons call.name (.cons (.value e) .nil) ms).leaves = .mark .dot ::
          .name call.name :: .mark .openParen :: (e.leaves ++ .mark .closeParen :: ms.leaves) := by
        simp [Methods.leaves, Arguments.leaves, Arguments.moreLeaves, Argument.leaves]
      rw [ht, hl]
      exact .mark .dot hname
    · have ha : (Arguments.cons (.value e) .nil).nesting = e.nesting + 1 := by
        simp [Arguments.nesting, Argument.nesting]
      rw [Methods.nesting, ha]
      exact Nat.max_le.mpr ⟨he, hn⟩
    · have ha : (Arguments.cons (.value e) .nil).denote = .ok [.quantity call.argument.value] := by
        simp [Arguments.denote, Argument.denote, hed, bind, Except.bind, pure, Except.pure]
      rw [Methods.denote, ha, applyCalls, List.foldlM_cons, ← call.method_eq_apply hr]
      change (Call.method _ _ _ >>= _) = _
      cases hm : Call.method receiver call.name [.quantity call.argument.value] with
      | error e => rfl
      | ok q =>
        rw [call.method_eq_apply hr] at hm
        exact hd q (Quantity.apply_ne_integer hm)

/-! ## Its text -/

/-- A parenthesised operand with calls behind it. -/
def callsText (first : Valued) (calls : List MethodCall) : Text :=
  '(' :: (first.text ++ ')' :: calls.flatMap MethodCall.text)

/-- The calls without blanks. -/
def callsTail (calls : List MethodCall) : Text :=
  calls.flatMap fun call =>
    '.' :: (call.name ++ '(' :: (Text.stripped call.argument.text ++ [')']))

theorem stripped_callText (call : MethodCall) : Text.stripped call.text =
    '.' :: (call.name ++ '(' :: (Text.stripped call.argument.text ++ [')'])) := by
  have hn : Text.stripped call.name = call.name := Text.stripped_eq_self fun c hc =>
    MethodCall.of_mem_name hc (by decide)
  have ht : call.text = ['.'] ++ (call.name ++ (['('] ++ (call.argument.text ++ [')']))) := rfl
  rw [ht, Text.stripped_append, Text.stripped_append, Text.stripped_append, Text.stripped_append, hn]
  rfl

theorem stripped_callsText (first : Valued) (calls : List MethodCall) :
    Text.stripped (callsText first calls) =
      '(' :: (Text.stripped first.text ++ ')' :: callsTail calls) := by
  have hc : Text.stripped (calls.flatMap MethodCall.text) = callsTail calls := by
    rw [Text.stripped, List.filter_flatMap]
    exact List.flatMap_congr fun call _ => stripped_callText call
  have ht : callsText first calls =
      ['('] ++ (first.text ++ ([')'] ++ calls.flatMap MethodCall.text)) := rfl
  rw [ht, Text.stripped_append, Text.stripped_append, Text.stripped_append, hc]
  rfl

theorem MethodCall.cut_name (call : MethodCall) (rest : Text) :
    Token.cut 0 [] [] (call.name ++ '(' :: rest) =
      ⟨.run, call.name⟩ :: Token.cut 0 [] [] ('(' :: rest) := by
  have ho : Token.standsAlone 0 '(' rest.head? = some .operator :=
    Token.standsAlone_operator (by decide) _ _
  have ha : ∀ c ∈ call.name, c.isAlpha = true := fun c hc => of_mem_name hc (by decide)
  have hx : 'x' ∉ call.name := fun hm =>
    of_mem_name (motive := (· ≠ 'x')) hm (by decide) rfl
  rw [Token.cut_word call.name_ne_nil ha hx ho, Token.cut_cons_alone ho]
  rfl

theorem preparedBehind_name (call : MethodCall) (before : Option Token) (rest : Text) :
    preparedBehind before (call.name ++ '(' :: rest) =
      call.name ++ preparedBehind (some ⟨.run, call.name⟩) ('(' :: rest) := by
  have hs : Prepared.isSign before ⟨.run, call.name⟩ = false := rfl
  have hc : Literal.classify call.name = .other := Literal.classify_of_head fun c hc =>
    MethodCall.of_mem_name (List.mem_of_head? hc) (by decide)
  have hp : Prepared.piece ⟨.run, call.name⟩ = call.name := by simp [Prepared.piece, hc]
  rw [preparedBehind, call.cut_name, Prepared.collect_cons (Prepared.not_folds_of_isSign hs _),
    List.flatten_cons, hp]
  rfl

theorem preparedBehind_callsTail : ∀ calls : List MethodCall,
    preparedBehind (some Token.closeParen) (callsTail calls) = preparedCalls calls
  | [] => rfl
  | call :: calls => by
    have ht : callsTail (call :: calls) = '.' :: (call.name ++ '(' ::
        (Text.stripped call.argument.text ++ ')' :: callsTail calls)) := by
      simp [callsTail]
    -- a letter follows the point, so it is no decimal point
    have ha : Token.standsAlone 0 '.' (call.name ++ '(' ::
        (Text.stripped call.argument.text ++ ')' :: callsTail calls)).head? = some .dot := by
      obtain ⟨c, more, hn⟩ := List.exists_cons_of_ne_nil call.name_ne_nil
      have hm : c ∈ call.name := by rw [hn]; exact List.mem_cons_self
      have hc : (Text.isDigit c || c = '#') = false := MethodCall.of_mem_name hm (by decide)
      rw [hn, List.cons_append, List.head?_cons]
      simp only [Token.standsAlone, Option.any_some, hc]
      rfl
    rw [ht, prepare_alone ha, preparedBehind_name, prepare_group call.argument.alone,
      preparedBehind_callsTail calls]
    simp [preparedCalls, Prepared.piece]

theorem prepare_calls (first : Valued) (calls : List MethodCall) :
    prepare (callsText first calls) = '(' :: (prepare first.text ++ ')' :: preparedCalls calls) := by
  rw [prepare_eq, stripped_callsText, prepare_group first.alone, preparedBehind_callsTail]

/-! ## Its value -/

theorem evaluate_callsText {first : Valued} (h : ∀ n, first.value ≠ .integer n)
    (calls : List MethodCall) : evaluate (callsText first calls) = applyCalls first.value calls := by
  obtain ⟨e, hn, hs, hd⟩ := first.exists_expression
  obtain ⟨ms, hms, hmn, hmd⟩ := exists_methods calls
  let f : Factor := .plain (.mk (.group e) ms)
  have hf : f.nesting ≤ depthLimit := by
    simp only [f, Factor.nesting, Operand.nesting, Primary.nesting]
    omega
  have hl : Spells f.leaves (prepare (callsText first calls)) := by
    rw [prepare_calls]
    simp only [f, Factor.leaves, Operand.leaves_group]
    exact spells_group hs hms
  have hv : f.denote = ms.denote first.value := by
    simp only [f, Factor.denote, Operand.denote, Primary.denote, hd]
    rfl
  rw [evaluate, evaluatePrepared_factor hf hl, hv, hmd _ h]

theorem twoLevel_pair (left right : Quantity) (op : Operator) :
    twoLevel left [(op, right)] = Quantity.apply op.operation left right := by
  cases hp : op.isProduct with
  | true =>
    simp only [twoLevel, List.takeWhile_cons, List.takeWhile_nil, List.dropWhile_cons,
      List.dropWhile_nil, hp, if_true, product, List.foldlM_cons, List.foldlM_nil, sums]
    cases Quantity.apply op.operation left right <;> rfl
  | false =>
    simp only [twoLevel, List.takeWhile_cons, List.dropWhile_cons, hp, Bool.false_eq_true, if_false,
      product, List.foldlM_nil, List.takeWhile_nil, List.dropWhile_nil, sums, pure_bind]
    cases Quantity.apply op.operation left right <;> rfl

/-- An operator between two operands. -/
theorem evaluate_operator (a b : Valued) (op : Operator) {text : Text}
    (h : Text.Spaced (chainPieces a [(op, b)]) text) :
    evaluate text = Quantity.apply op.operation a.value b.value := by
  obtain ⟨e, hn, hs, hd⟩ := a.exists_expression
  obtain ⟨js, hv, hjs⟩ := exists_joined [(op, b)]
  obtain ⟨c, hl, hc, hcd⟩ := exists_chain hn hd js
  rw [evaluate, prepare_chain h, evaluatePrepared_of_spells hc (by rw [hl]; exact spells_group hs hjs),
    hcd, hv]
  exact twoLevel_pair a.value b.value op

/-- **Methods and operators.** A chain of calls on a parenthesised operand that is no integer has
the value of the plain fold, or its first error; and one call has the value of the operator,
however blanks are set around that. -/
theorem evaluate_calls (first : Valued) (h : ∀ n, first.value ≠ .integer n) :
    (∀ calls : List MethodCall,
      evaluate (callsText first calls) = applyCalls first.value calls) ∧
    ∀ (call : MethodCall) (op : Operator), op.operation = call.operation → ∀ text : Text,
      Text.Spaced (chainPieces first [(op, call.argument)]) text →
        evaluate (callsText first [call]) = evaluate text := by
  refine ⟨evaluate_callsText h, fun call op ho text ht => ?_⟩
  rw [evaluate_callsText h, evaluate_operator first call.argument op ht, ho, applyCalls]
  cases ha : Quantity.apply call.operation first.value call.argument.value <;>
    simp [ha, bind, Except.bind, pure, Except.pure]

/-- The product comes last, although its operator would have come first; and a method of a name
in mixed case does what the operator does. -/
theorem evaluate_calls_mixed_case :
    let five : Valued := ⟨['5'], .scalar (.ofWhole 5), by decide +kernel, by decide +kernel⟩
    let four : Valued := ⟨['4'], .scalar (.ofWhole 4), by decide +kernel, by decide +kernel⟩
    let plus : MethodCall := ⟨.add, "aDD".toList, four, rfl⟩
    let times : MethodCall := ⟨.multiply, "MULTIPLY".toList, four, rfl⟩
    let product : Text := ['(', '5', ')', 'x', ' ', '(', '4', ')']
    callsText five [plus, times] = "(5).aDD(4).MULTIPLY(4)".toList ∧
      evaluate (callsText five [plus, times]) = .ok (.scalar (.ofWhole 36)) ∧
      evaluate (callsText five [times]) = evaluate product := by
  intro five four plus times product
  have h : ∀ n, five.value ≠ .integer n := fun n hn => by cases hn
  have hs : Text.Spaced (chainPieces five [(.cross, four)]) product :=
    .piece ['('] (.piece ['5'] (.piece [')'] (.piece ['x'] (.blank rfl (.piece ['(']
      (.piece ['4'] (.piece [')'] .nil)))))))
  exact ⟨rfl, ((evaluate_calls five h).1 [plus, times]).trans (by decide +kernel),
    (evaluate_calls five h).2 times .cross rfl _ hs⟩

end BinaryPoint
