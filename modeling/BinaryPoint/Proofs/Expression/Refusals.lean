import BinaryPoint.Expression.Evaluate
import BinaryPoint.Proofs.Expression.Calls
import BinaryPoint.Proofs.Expression.Spelling

/-!
# Errors of phrases

An error shows most of what it is about in quotes, with escapes, but it names functions and
methods as they stand. Those names are lexemes of the text, so they hold letters, digits and
low lines only, or they are the name of an operation; two of them may have a point between them.
And phrases read lexemes, so the errors of a text that has no lexemes are none of theirs: no
phrase looks for a closing quote.

`Phrase.NamesFit` says of a phrase that its errors are about lexemes and name nothing that runs
over the end of a line, as long as the names that it meets do not. Each combinator keeps it, so
the grammar has it at every level of nesting.

* `namesFit_expression`: the phrase for expressions.
* `namesFit_of_evaluate`: the errors of `evaluate`.
* `errorFits_of_spells`: the errors of the lexemes of a text.
-/
namespace BinaryPoint

/-- What the error names fits on a line. -/
def EvalError.NamesFit : EvalError → Prop
  | .unknownFunction name => '\n' ∉ name
  | .unknownMethod method _ => '\n' ∉ method
  | .argumentCount call _ _ => '\n' ∉ call
  | .undefinedFor operation _ => '\n' ∉ operation
  | _ => True

/-- The error of a text that has no lexemes. -/
def EvalError.IsLexical : EvalError → Prop
  | .unexpectedChar _ _ => True
  | .unexpectedEnd expected => expected = .closingQuote
  | _ => False

/-- The error is about lexemes, and what it names fits on a line. -/
structure EvalError.Fits (e : EvalError) : Prop where
  names : e.NamesFit
  not_lexical : ¬e.IsLexical

/-- The error, if there is one, is about lexemes and names nothing that runs over the end of a
line. -/
def ErrorFits {α : Type} (r : Except EvalError α) : Prop := ∀ e, r = .error e → e.Fits

section Results

variable {α β : Type}

theorem errorFits_ok (a : α) : ErrorFits (.ok a) := fun _ h => nomatch h

theorem errorFits_error {e : EvalError} (h : e.Fits) : ErrorFits (.error e : Except _ α) := by
  intro e' he
  cases he
  exact h

theorem errorFits_bind {r : Except EvalError α} {f : α → Except EvalError β} (hr : ErrorFits r)
    (hf : ∀ a, ErrorFits (f a)) : ErrorFits (r >>= f) := by
  cases r with
  | ok a => exact hf a
  | error e => exact errorFits_error (hr e rfl)

end Results

/-! ## Calls and operators -/

theorem errorFits_ofScalar? (r : Except NumberError Scalar) : ErrorFits (Quantity.ofScalar? r) := by
  cases r with
  | ok s => exact errorFits_ok _
  | error e => exact errorFits_error ⟨trivial, id⟩

theorem errorFits_ofVec? (r : Except NumberError Vec) : ErrorFits (Quantity.ofVec? r) := by
  cases r with
  | ok v => exact errorFits_ok _
  | error e => exact errorFits_error ⟨trivial, id⟩

theorem errorFits_apply (op : Operation) (a b : Quantity) : ErrorFits (Quantity.apply op a b) := by
  have hop : '\n' ∉ op.name := by cases op <;> decide
  unfold Quantity.apply
  split
  · exact errorFits_ofScalar? _
  · exact errorFits_ofVec? _
  · exact errorFits_ofVec? _
  · exact errorFits_ofVec? _
  · exact errorFits_error ⟨hop, id⟩
  · exact errorFits_error ⟨hop, id⟩

theorem errorFits_negate (q : Quantity) : ErrorFits q.negate := by
  cases q with
  | scalar a => exact errorFits_ok _
  | vector a => exact errorFits_ok _
  | integer n => exact errorFits_error ⟨by show '\n' ∉ "Negate".toList; decide, id⟩

theorem errorFits_negateTimes (count : Nat) (q : Quantity) :
    ErrorFits (Quantity.negateTimes count q) := by
  induction count generalizing q with
  | zero => exact errorFits_ok q
  | succ count ih =>
    unfold Quantity.negateTimes
    split
    · exact ih _
    · rename_i e he
      exact errorFits_error (errorFits_negate q e he)

namespace Call

variable {name : Text} (h : '\n' ∉ name) (arguments : List Argument)

include h

theorem errorFits_toText (a : Argument) : ErrorFits (a.toText name) := by
  cases a with
  | text t => exact errorFits_ok t
  | quantity q => exact errorFits_error ⟨h, id⟩

theorem errorFits_toQuantity (a : Argument) : ErrorFits (a.toQuantity name) := by
  cases a with
  | text t => exact errorFits_error ⟨h, id⟩
  | quantity q => exact errorFits_ok q

theorem errorFits_toVec (a : Argument) : ErrorFits (a.toVec name) := by
  unfold Argument.toVec
  split
  · exact errorFits_error ⟨h, id⟩
  · exact errorFits_ok _
  · exact errorFits_ok _
  · exact errorFits_error ⟨h, id⟩

theorem errorFits_noArguments : ErrorFits (noArguments name arguments) := by
  unfold noArguments
  split
  · exact errorFits_ok ()
  · exact errorFits_error ⟨h, id⟩

theorem errorFits_oneArgument : ErrorFits (oneArgument name arguments) := by
  unfold oneArgument
  split
  · exact errorFits_ok _
  · exact errorFits_error ⟨h, id⟩

theorem errorFits_area : ErrorFits (area name arguments) := by
  unfold area
  split
  · exact errorFits_bind (errorFits_toVec h _) fun _ => errorFits_bind (errorFits_toVec h _)
      fun _ => errorFits_bind (errorFits_toVec h _) fun _ => errorFits_ofScalar? _
  · exact errorFits_error ⟨h, id⟩

theorem errorFits_function : ErrorFits (function name arguments) := by
  unfold function
  split
  · exact errorFits_bind (errorFits_oneArgument h arguments) fun a =>
      errorFits_bind (errorFits_toText h a) fun _ => errorFits_ofScalar? _
  split
  · exact errorFits_bind (errorFits_oneArgument h arguments) fun a =>
      errorFits_bind (errorFits_toText h a) fun _ => errorFits_ofVec? _
  split
  · exact errorFits_area h arguments
  · exact errorFits_error ⟨h, id⟩

theorem errorFits_member {holder : Text} (hh : '\n' ∉ holder) :
    ErrorFits (member holder name arguments) := by
  unfold member
  split
  · exact errorFits_area h arguments
  · refine errorFits_error ⟨?_, id⟩
    show '\n' ∉ holder ++ ['.'] ++ name
    simp [hh, h]

theorem errorFits_method (receiver : Quantity) : ErrorFits (method receiver name arguments) := by
  unfold method
  split
  · exact errorFits_error ⟨h, id⟩
  · exact errorFits_bind (errorFits_oneArgument h arguments) fun a =>
      errorFits_bind (errorFits_toQuantity h a) fun _ => errorFits_apply _ _ _
  · exact errorFits_bind (errorFits_noArguments h arguments) fun _ => errorFits_negate _
  · exact errorFits_bind (errorFits_oneArgument h arguments) fun a =>
      errorFits_bind (errorFits_toVec h a) fun _ => errorFits_ofScalar? _
  · exact errorFits_bind (errorFits_oneArgument h arguments) fun a =>
      errorFits_bind (errorFits_toVec h a) fun _ => errorFits_ofScalar? _
  · exact errorFits_bind (errorFits_noArguments h arguments) fun _ => errorFits_ok _
  · exact errorFits_bind (errorFits_noArguments h arguments) fun _ => errorFits_ok _
  · exact errorFits_error ⟨h, id⟩

end Call

/-! ## Phrases -/

/-- The names among the lexemes fit on a line. -/
def Lexeme.NamesFit (lexemes : List Lexeme) : Prop :=
  ∀ name, Lexeme.name name ∈ lexemes → '\n' ∉ name

/-- What a phrase gives fits: a value as `P` says and lexemes whose names fit, or an error. -/
def ReadingFits {α : Type} (P : α → Prop) : Except EvalError (α × List Lexeme) → Prop
  | .ok (a, rest) => P a ∧ Lexeme.NamesFit rest
  | .error e => e.Fits

/-- Of lexemes whose names fit the phrase gives what fits. -/
def Phrase.NamesFit {α : Type} (P : α → Prop) (phrase : Phrase α) : Prop :=
  ∀ s, Lexeme.NamesFit s → ReadingFits P (phrase.read s)

theorem Lexeme.namesFit_cons {lexeme : Lexeme} {rest : List Lexeme} :
    NamesFit (lexeme :: rest) ↔ NamesFit [lexeme] ∧ NamesFit rest := by
  simp only [NamesFit, List.mem_cons, List.not_mem_nil, or_false]
  exact ⟨fun h => ⟨fun n hn => h n (.inl hn), fun n hn => h n (.inr hn)⟩,
    fun h n hn => hn.elim (h.1 n) (h.2 n)⟩

namespace Phrase

variable {α β : Type} {P : α → Prop} {Q : β → Prop}

theorem fits_refusal {expected : Expected} (h : expected ≠ .closingQuote) (s : List Lexeme) :
    (refusal expected s).Fits := by
  cases s with
  | nil => exact ⟨trivial, h⟩
  | cons lexeme rest => exact ⟨trivial, id⟩

theorem namesFit_fail {e : EvalError} (h : e.Fits) : (fail e).NamesFit P := fun _ _ => h

theorem namesFit_byHead {expected : Expected} (he : expected ≠ .closingQuote)
    {next : Lexeme → Option (Phrase α)} (h : ∀ lexeme phrase, Lexeme.NamesFit [lexeme] →
      next lexeme = some phrase → phrase.NamesFit P) : (byHead expected next).NamesFit P := by
  intro s hs
  cases s with
  | nil => exact fits_refusal he []
  | cons lexeme rest =>
    obtain ⟨hl, hrest⟩ := Lexeme.namesFit_cons.mp hs
    simp only [byHead]
    split
    · rename_i phrase hp; exact h lexeme phrase hl hp rest hrest
    · exact fits_refusal he _

theorem namesFit_one {expected : Expected} (he : expected ≠ .closingQuote)
    {value : Lexeme → Option α}
    (h : ∀ lexeme a, Lexeme.NamesFit [lexeme] → value lexeme = some a → P a) :
    (one expected value).NamesFit P := by
  intro s hs
  cases s with
  | nil => exact fits_refusal he []
  | cons lexeme rest =>
    obtain ⟨hl, hrest⟩ := Lexeme.namesFit_cons.mp hs
    simp only [one]
    split
    · rename_i a ha; exact ⟨h lexeme a hl ha, hrest⟩
    · exact fits_refusal he _

theorem namesFit_mark (m : Mark) {expected : Expected} (he : expected ≠ .closingQuote) :
    (mark m expected).NamesFit fun _ => True :=
  namesFit_one he fun _ _ _ _ => trivial

theorem namesFit_name {expected : Expected} (he : expected ≠ .closingQuote) :
    (name expected).NamesFit ('\n' ∉ ·) := by
  refine namesFit_one he fun lexeme a hl ha => ?_
  split at ha
  · cases ha; exact hl a List.mem_cons_self
  · cases ha

theorem namesFit_andThen {first : Phrase α} {second : α → Phrase β} (h₁ : first.NamesFit P)
    (h₂ : ∀ a, P a → (second a).NamesFit Q) : (first.andThen second).NamesFit Q := by
  intro s hs
  have h := h₁ s hs
  simp only [andThen]
  split
  · rename_i a rest hr; rw [hr] at h; exact h₂ a h.1 rest h.2
  · rename_i e hr; rw [hr] at h; exact h

theorem namesFit_check {phrase : Phrase α} {f : α → Except EvalError β} (h : phrase.NamesFit P)
    (hf : ∀ a, P a → ErrorFits (f a)) : (phrase.check f).NamesFit fun _ => True := by
  intro s hs
  have h := h s hs
  simp only [check]
  split
  · rename_i a rest hr
    rw [hr] at h
    split
    · exact ⟨trivial, h.2⟩
    · rename_i e he; exact hf a h.1 e he
  · rename_i e hr; rw [hr] at h; exact h

theorem namesFit_map (f : α → β) {phrase : Phrase α} (h : phrase.NamesFit P) :
    (phrase.map f).NamesFit fun _ => True :=
  namesFit_check h fun _ _ => errorFits_ok _

theorem namesFit_ifMark (m : Mark) {yes no : Phrase α} (hy : yes.NamesFit P) (hn : no.NamesFit P) :
    (ifMark m yes no).NamesFit P := by
  intro s hs
  simp only [ifMark]
  split
  · split
    · exact hy _ (Lexeme.namesFit_cons.mp hs).2
    · exact hn _ hs
  · exact hn _ hs

theorem namesFit_orMark (m : Mark) {a : α} {no : Phrase α} (ha : P a) (hn : no.NamesFit P) :
    (orMark m a no).NamesFit P := by
  intro s hs
  simp only [orMark]
  split
  · split
    · exact ⟨ha, (Lexeme.namesFit_cons.mp hs).2⟩
    · exact hn _ hs
  · exact hn _ hs

theorem readingFits_continueFrom {next : α → Lexeme → Option (Phrase α)}
    (h : ∀ a lexeme phrase, next a lexeme = some phrase → phrase.NamesFit P) (a : α) (ha : P a)
    (s : List Lexeme) (hs : Lexeme.NamesFit s) : ReadingFits P (continueFrom next a s) := by
  fun_induction continueFrom next a s with
  | case1 => exact ⟨ha, hs⟩
  | case2 => exact ⟨ha, hs⟩
  | case3 a lexeme rest phrase hp b rest' hr ih =>
    have hb := h a lexeme phrase hp rest (Lexeme.namesFit_cons.mp hs).2
    rw [hr] at hb
    exact ih hb.1 hb.2
  | case4 a lexeme rest phrase hp e hr =>
    have he := h a lexeme phrase hp rest (Lexeme.namesFit_cons.mp hs).2
    rw [hr] at he
    exact he

theorem namesFit_chain {first : Phrase α} {next : α → Lexeme → Option (Phrase α)}
    (h₁ : first.NamesFit P)
    (h₂ : ∀ a lexeme phrase, next a lexeme = some phrase → phrase.NamesFit P) :
    (chain first next).NamesFit P := by
  intro s hs
  have h := h₁ s hs
  simp only [chain]
  split
  · rename_i a rest hr; rw [hr] at h; exact readingFits_continueFrom h₂ a h.1 rest h.2
  · rename_i e hr; rw [hr] at h; exact h

theorem namesFit_afterMarks (m : Mark) {phrase : Nat → Phrase α}
    (h : ∀ count, (phrase count).NamesFit P) : (afterMarks m phrase).NamesFit P :=
  fun _ hs => h _ _ fun name hn => hs name ((List.dropWhile_sublist _).mem hn)

end Phrase

/-! ## The grammar -/

namespace Grammar

variable {inner : Phrase Quantity} (h : inner.NamesFit fun _ => True)

include h

theorem namesFit_argument : (argument inner).NamesFit fun _ => True := by
  intro s hs
  simp only [argument]
  split
  · exact ⟨trivial, (Lexeme.namesFit_cons.mp hs).2⟩
  · exact Phrase.namesFit_map _ h s hs

theorem namesFit_arguments : (arguments inner).NamesFit fun _ => True := by
  have more : ∀ read lexeme phrase, nextArgument inner read lexeme = some phrase →
      phrase.NamesFit fun _ => True := by
    intro read lexeme phrase hp
    unfold nextArgument at hp
    split at hp
    · cases hp; exact Phrase.namesFit_map _ (namesFit_argument h)
    · cases hp
  refine Phrase.namesFit_andThen (Phrase.namesFit_mark .openParen nofun) fun _ _ => ?_
  refine Phrase.namesFit_orMark .closeParen trivial ?_
  refine Phrase.namesFit_andThen
    (Phrase.namesFit_chain (Phrase.namesFit_map _ (namesFit_argument h)) more) fun _ _ => ?_
  exact Phrase.namesFit_map _ (Phrase.namesFit_mark .closeParen nofun)

theorem namesFit_primary : (primary inner).NamesFit fun _ => True := by
  refine Phrase.namesFit_byHead (by decide) fun lexeme phrase hl hp => ?_
  split at hp
  · cases hp
    exact Phrase.namesFit_andThen h fun _ _ =>
      Phrase.namesFit_map _ (Phrase.namesFit_mark .closeParen nofun)
  · rename_i holder
    have hh : '\n' ∉ holder := hl holder List.mem_cons_self
    cases hp
    refine Phrase.namesFit_ifMark .dot ?_ ?_
    · exact Phrase.namesFit_andThen (Phrase.namesFit_name nofun) fun name hn =>
        Phrase.namesFit_check (namesFit_arguments h) fun args _ => Call.errorFits_member hn args hh
    · exact Phrase.namesFit_check (namesFit_arguments h) fun args _ =>
        Call.errorFits_function hh args
  · cases hp

theorem namesFit_operand : (operand inner).NamesFit fun _ => True := by
  refine Phrase.namesFit_chain (namesFit_primary h) fun receiver lexeme phrase hp => ?_
  unfold nextMethod at hp
  split at hp
  · cases hp
    exact Phrase.namesFit_andThen (Phrase.namesFit_name nofun) fun name hn =>
      Phrase.namesFit_check (namesFit_arguments h) fun args _ =>
        Call.errorFits_method hn args receiver
  · cases hp

theorem namesFit_factor : (factor inner).NamesFit fun _ => True :=
  Phrase.namesFit_afterMarks .minus fun count =>
    Phrase.namesFit_check (namesFit_operand h) fun q _ => errorFits_negateTimes count q

omit h in
theorem namesFit_operators {operation : Lexeme → Option Operation} {right : Phrase Quantity}
    (h : right.NamesFit fun _ => True) :
    (Phrase.chain right (nextOperand operation right)).NamesFit fun _ => True := by
  refine Phrase.namesFit_chain h fun left lexeme phrase hp => ?_
  obtain ⟨op, -, rfl⟩ := Option.map_eq_some_iff.mp hp
  exact Phrase.namesFit_check h fun q _ => errorFits_apply op left q

theorem namesFit_sum : (sum inner).NamesFit fun _ => True :=
  namesFit_operators (namesFit_operators (namesFit_factor h))

omit h in
theorem namesFit_expression (limit levels : Nat) :
    (expression limit levels).NamesFit fun _ => True := by
  induction levels with
  | zero => exact namesFit_sum (Phrase.namesFit_fail ⟨trivial, id⟩)
  | succ levels ih => exact namesFit_sum ih

end Grammar

/-! ## Texts -/

theorem Lexeme.namesFit_of_spells {lexemes : List Lexeme} {text : Text}
    (h : Lexeme.Spells lexemes text) : Lexeme.NamesFit lexemes := by
  induction h with
  | nil => exact fun _ hn => nomatch hn
  | blank _ _ ih => exact ih
  | mark m _ ih => exact Lexeme.namesFit_cons.mpr ⟨by simp [Lexeme.NamesFit], ih⟩
  | quoted _ _ ih => exact Lexeme.namesFit_cons.mpr ⟨by simp [Lexeme.NamesFit], ih⟩
  | @name c more _ _ hc hm _ _ ih =>
    refine Lexeme.namesFit_cons.mpr ⟨fun name hn hnew => ?_, ih⟩
    have hrest : ∀ d ∈ c :: more, Lexeme.isNameRest d = true :=
      List.forall_mem_cons.mpr ⟨Lexeme.isNameRest_of_isNameStart hc, hm⟩
    cases List.mem_singleton.mp hn
    exact absurd (hrest _ hnew) (by decide)

/-- What has no lexemes is refused for lexical reasons. -/
theorem Lexeme.isLexical_of_scan (offset : Nat) (done : List Lexeme) (text : Text) {e : EvalError}
    (h : Lexeme.scan offset done text = .error e) : e.IsLexical := by
  fun_induction Lexeme.scan offset done text with
  | case1 => cases h
  | case2 _ _ _ _ _ ih => exact ih h
  | case3 _ _ _ _ _ _ _ ih => exact ih h
  | case4 => cases h; exact rfl
  | case5 _ _ _ _ _ _ _ _ ih => exact ih h
  | case6 _ _ _ _ _ _ _ _ _ ih => exact ih h
  | case7 => cases h; exact trivial

theorem EvalError.namesFit_of_isLexical {e : EvalError} (h : e.IsLexical) : e.NamesFit := by
  unfold EvalError.IsLexical at h
  split at h
  · exact trivial
  · exact trivial
  · exact h.elim

theorem errorFits_evaluateLexemes {lexemes : List Lexeme} (h : Lexeme.NamesFit lexemes) :
    ErrorFits (evaluateLexemes lexemes) := by
  unfold evaluateLexemes
  split
  · exact errorFits_error ⟨trivial, id⟩
  · have hr := Grammar.namesFit_expression depthLimit depthLimit lexemes h
    split
    · exact errorFits_ok _
    · exact errorFits_error (Phrase.fits_refusal (by decide) _)
    · rename_i e he; rw [he] at hr; exact errorFits_error hr

theorem errorFits_of_spells {lexemes : List Lexeme} {text : Text} (h : Lexeme.Spells lexemes text) :
    ErrorFits (evaluateLexemes lexemes) :=
  errorFits_evaluateLexemes (Lexeme.namesFit_of_spells h)

/-- **An error names nothing that runs over the end of a line.** -/
theorem namesFit_of_evaluate {text : Text} {e : EvalError} (h : evaluate text = .error e) :
    e.NamesFit := by
  unfold evaluate evaluatePrepared at h
  cases hl : Lexeme.ofText (prepare text) with
  | error e' =>
    rw [hl] at h; cases h
    exact EvalError.namesFit_of_isLexical (Lexeme.isLexical_of_scan 0 [] _ hl)
  | ok lexemes =>
    rw [hl] at h
    exact (errorFits_of_spells (Lexeme.ofText_eq_ok.mp hl) e h).names

end BinaryPoint
