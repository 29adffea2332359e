import BinaryPoint.Proofs.Expression.Reading
import BinaryPoint.Proofs.Expression.Recovery
import BinaryPoint.Proofs.Expression.Spelling
import BinaryPoint.Proofs.Expression.Unambiguity

/-!
# The evaluator implements its grammar

Reading and recovery, put together over a whole text: the evaluator of prepared text gives the
value of the derivation that the text spells, no matter how blanks are set, and it accepts
nothing that is not spelled by a derivation.

* `evaluateLexemes_leaves`, `leaves_of_evaluateLexemes`: the two halves over lexemes.
* `evaluatePrepared_factor`: the value of a text that spells one factor.
* `evaluatePrepared_eq_ok_iff`: the value of a text that spells a derivation.
* `evaluatePrepared_exact`: both over texts, with the derivation unique.
-/
namespace BinaryPoint

open BinaryPoint.Derivation

theorem evaluateLexemes_leaves {e : Expression} (h : e.nesting ≤ depthLimit) :
    evaluateLexemes e.leaves = e.denote := by
  obtain ⟨l, tail, hl, _⟩ := e.leaves_eq
  have hr := e.reads depthLimit depthLimit [] h (notBefore_nil _)
  rw [Reads, List.append_nil] at hr
  rw [hl] at hr ⊢
  simp only [evaluateLexemes, hr]
  cases e.denote <;> rfl

theorem leaves_of_evaluateLexemes {lexemes : List Lexeme} {q : Quantity}
    (h : evaluateLexemes lexemes = .ok q) :
    ∃ e : Expression, lexemes = e.leaves ∧ e.nesting ≤ depthLimit ∧ e.denote = .ok q := by
  unfold evaluateLexemes at h
  split at h
  · cases h
  · split at h
    · rename_i hr
      cases h
      obtain ⟨e, hs, hn, hd⟩ := Expression.of_read hr
      exact ⟨e, by rw [hs, List.append_nil], hn, hd⟩
    · cases h
    · cases h

theorem evaluatePrepared_of_spells {e : Expression} {text : Text} (hn : e.nesting ≤ depthLimit)
    (hs : Lexeme.Spells e.leaves text) : evaluatePrepared text = e.denote := by
  rw [evaluatePrepared, Lexeme.ofText_eq_ok.mpr hs]
  exact evaluateLexemes_leaves hn

theorem evaluatePrepared_factor {f : Factor} {text : Text} (hn : f.nesting ≤ depthLimit)
    (hs : Lexeme.Spells f.leaves text) : evaluatePrepared text = f.denote := by
  rw [← Expression.nesting_single] at hn
  rw [← Expression.leaves_single] at hs
  rw [evaluatePrepared_of_spells hn hs, Expression.denote_single]

theorem spells_of_evaluatePrepared {text : Text} {q : Quantity} (h : evaluatePrepared text = .ok q) :
    ∃ e : Expression, e.nesting ≤ depthLimit ∧ Lexeme.Spells e.leaves text ∧ e.denote = .ok q := by
  unfold evaluatePrepared at h
  cases hl : Lexeme.ofText text with
  | error e => rw [hl] at h; cases h
  | ok lexemes =>
    rw [hl] at h
    obtain ⟨e, rfl, hn, hd⟩ := leaves_of_evaluateLexemes h
    exact ⟨e, hn, Lexeme.ofText_eq_ok.mp hl, hd⟩

theorem spells_leaves_inj {e e' : Expression} {text : Text} (h : Lexeme.Spells e.leaves text)
    (h' : Lexeme.Spells e'.leaves text) : e = e' :=
  Expression.leaves_inj (h.unique h')

/-- A text that spells a derivation has a value exactly if the derivation has it within the
limit. -/
theorem evaluatePrepared_eq_ok_iff {e : Expression} {text : Text} (hs : Lexeme.Spells e.leaves text)
    (q : Quantity) : evaluatePrepared text = .ok q ↔ e.nesting ≤ depthLimit ∧ e.denote = .ok q := by
  constructor
  · intro h
    obtain ⟨e', hn, hs', hd⟩ := spells_of_evaluatePrepared h
    rw [spells_leaves_inj hs hs']
    exact ⟨hn, hd⟩
  · rintro ⟨hn, hd⟩
    rw [evaluatePrepared_of_spells hn hs, hd]

/-- **Exactness.** A text that spells a derivation within the depth limit evaluates to what the
derivation denotes, its value or its first error; and a text that evaluates to a value spells
exactly one derivation, which is within the limit and denotes that value. -/
theorem evaluatePrepared_exact (text : Text) :
    (∀ e : Expression, e.nesting ≤ depthLimit → Lexeme.Spells e.leaves text →
      evaluatePrepared text = e.denote) ∧
    ∀ q : Quantity, evaluatePrepared text = .ok q →
      ∃ e : Expression, e.nesting ≤ depthLimit ∧ Lexeme.Spells e.leaves text ∧ e.denote = .ok q ∧
        ∀ e' : Expression, Lexeme.Spells e'.leaves text → e' = e := by
  refine ⟨fun e hn hs => evaluatePrepared_of_spells hn hs, fun q h => ?_⟩
  obtain ⟨e, hn, hs, hd⟩ := spells_of_evaluatePrepared h
  exact ⟨e, hn, hs, hd, fun e' hs' => spells_leaves_inj hs' hs⟩

/-- The text `-( ScalarFromText("1") )` spells a derivation, and its value is `-1`. -/
theorem evaluatePrepared_exact_negated_group :
    let text : Text := "-( ScalarFromText(\"1\") )".toList
    let one : Expression := .mk (.mk (.plain (.mk (.function Prepared.scalarConstructor
      (.cons (.text ['1']) .nil)) .nil)) .nil) .nil
    let whole : Expression := .mk (.mk (.negated (.plain (.mk (.group one) .nil))) .nil) .nil
    whole.nesting ≤ depthLimit ∧ Lexeme.Spells whole.leaves text ∧
      evaluatePrepared text = whole.denote ∧
      ∃ e : Expression, e.denote = .ok (.scalar (.ofWhole (-1))) ∧
        ∀ e' : Expression, Lexeme.Spells e'.leaves text → e' = e := by
  intro text one whole
  have hn : whole.nesting ≤ depthLimit := by decide
  have hs : Lexeme.Spells whole.leaves text :=
    .mark .minus (.mark .openParen (.blank rfl (@Lexeme.Spells.name 'S' "calarFromText".toList _ _
      rfl (List.all_eq_true.mp rfl) (Lexeme.endsName_mark .openParen _) (.mark .openParen
        (@Lexeme.Spells.quoted ['1'] _ _ (by decide) (.mark .closeParen (.blank rfl
          (.mark .closeParen .nil))))))))
  have hv := (evaluatePrepared_exact text).1 whole hn hs
  obtain ⟨e, _, _, hd, hu⟩ := (evaluatePrepared_exact text).2 (.scalar (.ofWhole (-1)))
    (hv.trans (by decide +kernel))
  exact ⟨hn, hs, hv, e, hd, hu⟩

end BinaryPoint
