import Mathlib.Algebra.Ring.Parity
import BinaryPoint.Proofs.Expression.Refusals

/-!
# Misplaced characters

Which characters of prepared text belong to no lexeme, said without a reader. Quotes open and
close strings in turn, whatever stands between them, so a place is outside of strings if the count
of quotes before it is even; behind a quote that is never closed all is inside. There a character
is misplaced if it is no blank, no mark, no quote, begins no name, and is no digit of a name.

A reader goes through the text lexeme by lexeme. `ReadThrough` says that the characters of a lexeme
are in place, and that those behind it are judged as if nothing was before them. So the reader stops
at the first misplaced character of the text or else at a quote that is not closed, and what the
lexemes before it mean does not matter.

* `Misplaced`, `NoneMisplaced`: characters that belong to no lexeme.
* `readThrough_blank`, `readThrough_mark`, `readThrough_quoted`, `readThrough_name`: lexemes.
* `outcome_scan`: what becomes of a text that is scanned.
* `evaluatePrepared_cases`: that no other error of the text is lexical.
* `evaluatePrepared_lexical`: the lexical errors of prepared text.
-/
namespace BinaryPoint

namespace Text

theorem byteLength_append (a b : Text) : byteLength (a ++ b) = byteLength a + byteLength b := by
  induction a with
  | nil => exact (Nat.zero_add _).symm
  | cons c a ih => exact (congrArg (c.utf8Size + ·) ih).trans (Nat.add_assoc _ _ _).symm

theorem byteLength_quoted (inner : Text) :
    byteLength ('"' :: inner ++ ['"']) = byteLength inner + 2 := by
  rw [byteLength_append, ← List.singleton_append, byteLength_append, Nat.add_right_comm,
    Nat.add_comm]
  rfl

/-- A character of two texts together is in the first, or in the second behind the first. -/
theorem append_eq_append_cons {a b before after : Text} {d : Char}
    (h : a ++ b = before ++ d :: after) :
    (∃ v, a = before ++ d :: v) ∨ ∃ v, before = a ++ v ∧ b = v ++ d :: after := by
  rcases List.append_eq_append_iff.mp h with ⟨v, hb, hv⟩ | ⟨v, ha, hv⟩
  · exact .inr ⟨v, hb, hv⟩
  · cases v with
    | nil => exact .inr ⟨[], by simpa using ha.symm, by simpa using hv.symm⟩
    | cons e v =>
      obtain ⟨rfl, -⟩ := List.cons.inj hv
      exact .inl ⟨v, ha⟩

end Text

namespace Lexeme

variable {w rest before front : Text} {c d : Char}

/-! ## Characters that belong to no lexeme -/

/-- The text ends with a name, which a digit behind it continues. -/
def EndsInName (text : Text) : Prop := ∃ front c more,
  text = front ++ c :: more ∧ isNameStart c = true ∧ ∀ d ∈ more, isNameRest d = true

/-- Behind `before` the character `c` is outside of strings and belongs to no lexeme. -/
structure Misplaced (before : Text) (c : Char) : Prop where
  outside : Even (before.count '"')
  not_blank : ¬Text.isBlank c
  not_mark : c ∉ ['+', '-', '*', '/', '(', ')', ',', '.', '"']
  not_start : ¬(c.isAlpha ∨ c = '_')
  not_continued : ¬(c.isDigit ∧ EndsInName before)

/-- No character of the text is misplaced. -/
def NoneMisplaced (text : Text) : Prop :=
  ∀ before c after, text = before ++ c :: after → ¬Misplaced before c

theorem isNameStart_iff : isNameStart c = true ↔ c.isAlpha ∨ c = '_' := by
  simp [isNameStart]

theorem isNameRest_iff : isNameRest c = true ↔ (c.isAlpha ∨ c = '_') ∨ c.isDigit := by
  simp only [isNameRest, Char.isAlphanum, Bool.or_eq_true, decide_eq_true_eq]
  exact or_right_comm

theorem char_mem (m : Mark) : m.char ∈ ['+', '-', '*', '/', '(', ')', ',', '.', '"'] := by
  cases m <;> decide

theorem not_mem_of_ofChar? (hm : Mark.ofChar? c = none) (hq : c ≠ '"') :
    c ∉ ['+', '-', '*', '/', '(', ')', ',', '.', '"'] := by
  intro h
  have hc : ∀ m : Mark, m.char ≠ c := fun m e => by
    rw [← e, ofChar?_char] at hm
    cases hm
  simp only [List.mem_cons, List.not_mem_nil, or_false] at h
  rcases h with rfl | rfl | rfl | rfl | rfl | rfl | rfl | rfl | rfl
  · exact hc .plus rfl
  · exact hc .minus rfl
  · exact hc .star rfl
  · exact hc .slash rfl
  · exact hc .openParen rfl
  · exact hc .closeParen rfl
  · exact hc .comma rfl
  · exact hc .dot rfl
  · exact hq rfl

/-- Names end at a character that no name may hold. -/
theorem endsInName_behind (hd : isNameRest d = false) :
    EndsInName (w ++ d :: front) ↔ EndsInName front := by
  constructor
  · rintro ⟨f, c, more, h, hc, hm⟩
    have hn : d ∉ c :: more := fun hmem => by
      have hr : ∀ e ∈ c :: more, isNameRest e = true :=
        List.forall_mem_cons.mpr ⟨isNameRest_of_isNameStart hc, hm⟩
      rw [hr d hmem] at hd
      cases hd
    rcases Text.append_eq_append_cons h.symm with ⟨v, hv⟩ | ⟨v, -, hv⟩
    · exact ⟨v, c, more, by simpa [hv] using h, hc, hm⟩
    · exact absurd (hv ▸ List.mem_append_right v List.mem_cons_self) hn
  · rintro ⟨f, c, more, rfl, hc, hm⟩
    exact ⟨w ++ d :: f, c, more, by rw [List.append_assoc, List.cons_append], hc, hm⟩

theorem not_endsInName_nil : ¬EndsInName [] := by
  rintro ⟨f, c, more, h, -⟩
  exact absurd h (by simp)

theorem noneMisplaced_nil : NoneMisplaced [] := fun _ _ _ h => absurd h (by simp)

theorem noneMisplaced_concat (h : NoneMisplaced w) (hc : ¬Misplaced w c) :
    NoneMisplaced (w ++ [c]) := by
  intro before d after he
  rcases Text.append_eq_append_cons he with ⟨v, hv⟩ | ⟨v, rfl, hv⟩
  · exact h before d v hv
  · cases v with
    | nil =>
      obtain ⟨rfl, -⟩ := List.cons.inj hv
      rwa [List.append_nil]
    | cons e v => exact absurd (List.cons.inj hv).2 (by simp)

/-- Behind the first quote all places are inside of the string. -/
theorem noneMisplaced_quote {inner : Text} (h : '"' ∉ inner) : NoneMisplaced ('"' :: inner) := by
  intro before c after he hm
  cases before with
  | nil =>
    obtain ⟨rfl, -⟩ := List.cons.inj he
    exact hm.not_mark (by decide)
  | cons d before =>
    obtain ⟨rfl, rfl⟩ := List.cons.inj he
    have hb : '"' ∉ before := fun hmem => h (List.mem_append_left _ hmem)
    have ho := hm.outside
    rw [List.count_cons_self, List.count_eq_zero.mpr hb] at ho
    exact absurd ho (by decide)

theorem noneMisplaced_name {more : Text} (hc : isNameStart c = true)
    (hm : ∀ d ∈ more, isNameRest d = true) : NoneMisplaced (c :: more) := by
  intro before d after he h
  cases before with
  | nil =>
    obtain ⟨rfl, -⟩ := List.cons.inj he
    exact h.not_start (isNameStart_iff.mp hc)
  | cons e before =>
    obtain ⟨rfl, rfl⟩ := List.cons.inj he
    have hd : isNameRest d = true := hm d (List.mem_append_right before List.mem_cons_self)
    rcases isNameRest_iff.mp hd with hs | hdigit
    · exact h.not_start hs
    · exact h.not_continued ⟨hdigit, [], c, before, rfl, hc,
        fun f hf => hm f (List.mem_append_left _ hf)⟩

/-! ## Lexemes that are read through -/

/-- The characters of `w` are in place, and those of `rest` behind it are judged as if it was not
there. -/
structure ReadThrough (w rest : Text) : Prop where
  even : Even (w.count '"')
  none : NoneMisplaced w
  behind : ∀ front d after, rest = front ++ d :: after →
    (Misplaced (w ++ front) d ↔ Misplaced front d)

theorem even_count (h : '"' ∉ w) : Even (w.count '"') := by
  rw [List.count_eq_zero.mpr h]
  exact Even.zero

theorem misplaced_append (he : Even (w.count '"'))
    (hn : d.isDigit → (EndsInName (w ++ front) ↔ EndsInName front)) :
    Misplaced (w ++ front) d ↔ Misplaced front d := by
  have hcount : Even ((w ++ front).count '"') ↔ Even (front.count '"') := by
    rw [List.count_append, Nat.even_add]
    exact iff_true_left he
  constructor
  · intro h
    exact ⟨hcount.mp h.outside, h.not_blank, h.not_mark, h.not_start,
      fun hd => h.not_continued ⟨hd.1, (hn hd.1).mpr hd.2⟩⟩
  · intro h
    exact ⟨hcount.mpr h.outside, h.not_blank, h.not_mark, h.not_start,
      fun hd => h.not_continued ⟨hd.1, (hn hd.1).mp hd.2⟩⟩

/-- A text whose last character no name may hold. -/
theorem readThrough_concat (he : Even ((w ++ [c]).count '"')) (hn : NoneMisplaced (w ++ [c]))
    (hc : isNameRest c = false) (rest : Text) : ReadThrough (w ++ [c]) rest where
  even := he
  none := hn
  behind front d _ _ := misplaced_append he fun _ => by
    rw [List.append_assoc]
    exact endsInName_behind hc

theorem readThrough_blank (hc : Text.isBlank c = true) (rest : Text) : ReadThrough [c] rest := by
  have hq : c ≠ '"' := fun h => absurd (h ▸ hc) (by decide)
  have hr : isNameRest c = false := by
    by_contra hr
    rw [isBlank_of_isNameRest (by simpa using hr)] at hc
    cases hc
  refine readThrough_concat (w := []) (even_count (by simpa using hq.symm)) ?_ hr rest
  exact noneMisplaced_concat noneMisplaced_nil fun h => h.not_blank hc

theorem readThrough_mark (m : Mark) (rest : Text) : ReadThrough [m.char] rest := by
  refine readThrough_concat (w := []) ?_ ?_ (isNameRest_char m) rest
  · cases m <;> decide
  · exact noneMisplaced_concat noneMisplaced_nil fun h => h.not_mark (char_mem m)

theorem readThrough_quoted {inner : Text} (h : '"' ∉ inner) (rest : Text) :
    ReadThrough ('"' :: inner ++ ['"']) rest := by
  refine readThrough_concat ?_ ?_ (by decide) rest
  · rw [List.count_append, List.count_cons_self, List.count_eq_zero.mpr h]
    decide
  · exact noneMisplaced_concat (noneMisplaced_quote h) fun hm => hm.not_mark (by decide)

theorem quote_not_mem_name {more : Text} (hc : isNameStart c = true)
    (hm : ∀ d ∈ more, isNameRest d = true) : '"' ∉ c :: more := by
  rw [List.mem_cons, not_or]
  exact ⟨(ne_quote_of_isNameRest (isNameRest_of_isNameStart hc)).symm,
    fun h => ne_quote_of_isNameRest (hm _ h) rfl⟩

/-- Behind a name there is no digit, and behind any other character the name does not count. -/
theorem readThrough_name {more : Text} (hc : isNameStart c = true)
    (hm : ∀ d ∈ more, isNameRest d = true) (he : EndsName rest) :
    ReadThrough (c :: more) rest where
  even := even_count (quote_not_mem_name hc hm)
  none := noneMisplaced_name hc hm
  behind front d after h := by
    refine misplaced_append (even_count (quote_not_mem_name hc hm)) fun hd => ?_
    subst h
    cases front with
    | nil =>
      have hr : isNameRest d = true := isNameRest_iff.mpr (.inr hd)
      rw [he d rfl] at hr
      cases hr
    | cons e front =>
      have hr : isNameRest e = false := he e rfl
      rw [endsInName_behind hr]
      exact (endsInName_behind (w := []) hr).symm

theorem ReadThrough.none_append (h : ReadThrough w rest) (hp : front <+: rest)
    (hf : NoneMisplaced front) : NoneMisplaced (w ++ front) := by
  intro before d after he
  obtain ⟨more, rfl⟩ := hp
  rcases Text.append_eq_append_cons he with ⟨v, hv⟩ | ⟨v, rfl, hv⟩
  · exact h.none before d v hv
  · rw [h.behind v d (after ++ more) (by rw [hv, List.append_assoc, List.cons_append])]
    exact hf v d after hv

/-! ## What becomes of a text -/

/-- The first misplaced character of the text, and what is before it. -/
structure FirstMisplaced (text before : Text) (c : Char) : Prop where
  stands : ∃ after, text = before ++ c :: after
  misplaced : Misplaced before c
  none : NoneMisplaced before

/-- What becomes of a text behind `offset` bytes: its first misplaced character is reported, or else
a quote that is not closed. -/
inductive ScanOutcome (offset : ℕ) (text : Text) : Except EvalError (List Lexeme) → Prop where
  | misplaced {before : Text} {c : Char} (h : FirstMisplaced text before c) :
    ScanOutcome offset text (.error (.unexpectedChar c (offset + Text.byteLength before)))
  | unclosed (hn : NoneMisplaced text) (hq : Odd (text.count '"')) :
    ScanOutcome offset text (.error (.unexpectedEnd .closingQuote))
  | read (hn : NoneMisplaced text) (hq : Even (text.count '"')) (lexemes : List Lexeme) :
    ScanOutcome offset text (.ok lexemes)

theorem ScanOutcome.behind {offset : ℕ} {r : Except EvalError (List Lexeme)}
    (h : ReadThrough w rest) (ho : ScanOutcome (offset + Text.byteLength w) rest r) :
    ScanOutcome offset (w ++ rest) r := by
  cases ho with
  | misplaced hf =>
    obtain ⟨⟨after, rfl⟩, hc, hn⟩ := hf
    rw [Nat.add_assoc, ← Text.byteLength_append]
    exact .misplaced ⟨⟨after, (List.append_assoc ..).symm⟩, (h.behind _ _ _ rfl).mpr hc,
      h.none_append (List.prefix_append ..) hn⟩
  | unclosed hn hq =>
    refine .unclosed (h.none_append (List.prefix_refl rest) hn) ?_
    rw [List.count_append]
    exact h.even.add_odd hq
  | read hn hq lexemes =>
    refine .read (h.none_append (List.prefix_refl rest) hn) ?_ lexemes
    rw [List.count_append]
    exact h.even.add hq

/-- By induction along the lexemes: each is read through, and at most the last is a stop. -/
theorem outcome_scan (offset : ℕ) (done : List Lexeme) (text : Text) :
    ScanOutcome offset text (scan offset done text) := by
  fun_induction scan offset done text with
  | case1 => exact .read noneMisplaced_nil Even.zero _
  | case2 offset done c rest hb ih => exact ih.behind (readThrough_blank hb rest)
  | case3 offset done c rest hb m hm ih =>
    rw [← char_of_ofChar? hm] at ih ⊢
    exact ih.behind (readThrough_mark m rest)
  | case4 offset done rest hcut =>
    have hq : '"' ∉ rest := Text.cutAt_eq_none.mp hcut
    refine .unclosed (noneMisplaced_quote hq) ?_
    rw [List.count_cons_self, List.count_eq_zero.mpr hq]
    exact odd_one
  | case5 offset done rest inner after hcut _ _ ih =>
    obtain ⟨rfl, hq⟩ := Text.cutAt_eq_some.mp hcut
    rw [Nat.add_assoc, ← Text.byteLength_quoted] at ih ⊢
    have ho := ih.behind (readThrough_quoted hq after)
    rw [List.append_assoc] at ho
    exact ho
  | case6 offset done c rest _ _ _ hc more ih =>
    have hm : ∀ d ∈ more, isNameRest d = true := fun d hd => List.mem_takeWhile_imp hd
    have ho := ih.behind (readThrough_name hc hm (endsName_dropWhile rest))
    rwa [List.cons_append, List.takeWhile_append_dropWhile] at ho
  | case7 offset done c rest hb hm hq hs => exact .misplaced ⟨⟨rest, rfl⟩, ⟨Even.zero, hb,
      not_mem_of_ofChar? hm hq, fun h => hs (isNameStart_iff.mpr h), fun h =>
        not_endsInName_nil h.2⟩, noneMisplaced_nil⟩

/-- There is one first misplaced character at most. -/
theorem FirstMisplaced.unique {text before before' : Text} {c c' : Char}
    (h : FirstMisplaced text before c) (h' : FirstMisplaced text before' c') :
    before = before' ∧ c = c' := by
  obtain ⟨after, rfl⟩ := h.stands
  obtain ⟨after', ht⟩ := h'.stands
  rcases Text.append_eq_append_cons ht with ⟨v, hv⟩ | ⟨v, hv, hc⟩
  · exact absurd h'.misplaced (h.none before' c' v hv)
  · cases v with
    | nil =>
      rw [List.append_nil] at hv
      exact ⟨hv.symm, (List.cons.inj hc).1⟩
    | cons d v =>
      obtain ⟨rfl, -⟩ := List.cons.inj hc
      exact absurd h.misplaced (h'.none before c v hv)

theorem FirstMisplaced.not_none {text before : Text} {c : Char} (h : FirstMisplaced text before c) :
    ¬NoneMisplaced text := by
  obtain ⟨after, he⟩ := h.stands
  exact fun hn => hn before c after he h.misplaced

end Lexeme

open Lexeme (Misplaced NoneMisplaced FirstMisplaced)

/-- Without a misplaced character and an open quote there are lexemes, and their errors are not
lexical. -/
theorem evaluatePrepared_cases (text : Text) :
    (∃ before c, FirstMisplaced text before c ∧
      evaluatePrepared text = .error (.unexpectedChar c (Text.byteLength before))) ∨
    ((NoneMisplaced text ∧ Odd (text.count '"')) ∧
      evaluatePrepared text = .error (.unexpectedEnd .closingQuote)) ∨
    (NoneMisplaced text ∧ Even (text.count '"')) ∧
      ∀ e, evaluatePrepared text = .error e → ¬e.IsLexical := by
  have ho := Lexeme.outcome_scan 0 [] text
  unfold evaluatePrepared Lexeme.ofText
  generalize hr : Lexeme.scan 0 [] text = r at ho
  cases ho with
  | misplaced h => exact .inl ⟨_, _, h, by rw [Nat.zero_add]; rfl⟩
  | unclosed hn hq => exact .inr (.inl ⟨⟨hn, hq⟩, rfl⟩)
  | read hn hq lexemes =>
    refine .inr (.inr ⟨⟨hn, hq⟩, fun e he => ?_⟩)
    exact (errorFits_of_spells (Lexeme.ofText_eq_ok.mp hr) e he).not_lexical

theorem evaluatePrepared_unexpectedChar_iff {text : Text} {c : Char} {offset : ℕ} :
    evaluatePrepared text = .error (.unexpectedChar c offset) ↔
      ∃ before, FirstMisplaced text before c ∧ offset = Text.byteLength before := by
  constructor
  · intro h
    rcases evaluatePrepared_cases text with ⟨before, d, hf, he⟩ | ⟨-, he⟩ | ⟨-, he⟩
    · cases he.symm.trans h
      exact ⟨before, hf, rfl⟩
    · cases he.symm.trans h
    · exact absurd trivial (he _ h)
  · rintro ⟨before, hf, rfl⟩
    rcases evaluatePrepared_cases text with ⟨before', d, hf', he⟩ | ⟨⟨hn, -⟩, -⟩ | ⟨⟨hn, -⟩, -⟩
    · obtain ⟨rfl, rfl⟩ := hf.unique hf'
      exact he
    · exact absurd hn hf.not_none
    · exact absurd hn hf.not_none

theorem evaluatePrepared_closingQuote_iff {text : Text} :
    evaluatePrepared text = .error (.unexpectedEnd .closingQuote) ↔
      NoneMisplaced text ∧ Odd (text.count '"') := by
  rcases evaluatePrepared_cases text with ⟨before, d, hf, he⟩ | ⟨h, he⟩ | ⟨⟨-, hq⟩, he⟩
  · rw [he]
    exact ⟨nofun, fun h => absurd h.1 hf.not_none⟩
  · exact ⟨fun _ => h, fun _ => he⟩
  · exact ⟨fun h => absurd rfl (he _ h), fun h => absurd hq (Nat.not_even_iff_odd.mpr h.2)⟩

/-- **Lexical errors.** Prepared text is refused for a character exactly if one is misplaced. This
is the first such character, and its offset is the length in bytes of the text before it. A quote
that is not closed is reported exactly if there is one and no character is misplaced. Both come
before any error of form or of numbers. -/
theorem evaluatePrepared_lexical (text : Text) :
    ((∃ c offset, evaluatePrepared text = .error (.unexpectedChar c offset)) ↔
      ∃ before c after, text = before ++ c :: after ∧ Misplaced before c) ∧
    (∀ c offset, evaluatePrepared text = .error (.unexpectedChar c offset) ↔
      ∃ before, FirstMisplaced text before c ∧ offset = Text.byteLength before) ∧
    (evaluatePrepared text = .error (.unexpectedEnd .closingQuote) ↔
      NoneMisplaced text ∧ Odd (text.count '"')) := by
  refine ⟨⟨?_, ?_⟩, fun _ _ => evaluatePrepared_unexpectedChar_iff,
    evaluatePrepared_closingQuote_iff⟩
  · rintro ⟨c, offset, h⟩
    obtain ⟨before, hf, -⟩ := evaluatePrepared_unexpectedChar_iff.mp h
    obtain ⟨after, he⟩ := hf.stands
    exact ⟨before, c, after, he, hf.misplaced⟩
  · rintro ⟨before, c, after, ht, hm⟩
    rcases evaluatePrepared_cases text with ⟨_, d, -, he⟩ | ⟨⟨hn, -⟩, -⟩ | ⟨⟨hn, -⟩, -⟩
    · exact ⟨d, _, he⟩
    · exact absurd hm (hn before c after ht)
    · exact absurd hm (hn before c after ht)

/-- A parenthesis too many, an unknown function and a string of two bytes come before the digit. -/
example : evaluatePrepared ")Foo(\"é\")1a\"".toList = .error (.unexpectedChar '1' 10) := by
  decide +kernel

end BinaryPoint
