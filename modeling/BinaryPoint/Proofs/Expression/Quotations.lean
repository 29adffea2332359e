import BinaryPoint.Proofs.Expression.Quotes

/-!
# Strings come from literals

No expression with a quote has a value, so all quotes of its prepared text are those of generated
calls. The strings of a text are what stands between its first and second quote, its third and
fourth, and so on; in the prepared text these are literals, and they are the strings that are read.

* `mem_strings_of_spells`: the strings that are read are the strings of the text.
* `isLiteralOf_of_mem_strings`: the strings of the prepared text of tokens without quotes.
* `quote_free_of_evaluate`: expressions with a quote have no value, and in those that have one
  each string that is read is a literal of theirs.
-/
namespace BinaryPoint

open Lexeme (Spells)
open Prepared (construct scalarConstructor vectorConstructor)

/-! ## Strings of a text -/

/-- The second, the fourth and so on. -/
def seconds {α : Type} : List α → List α
  | _ :: b :: rest => b :: seconds rest
  | _ => []

/-- The texts between two quotes. -/
def Text.strings (text : Text) : List Text := seconds (Text.splitWhen (· == '"') text)

open Text (strings)

theorem beq_quote {s : Text} (h : '"' ∉ s) : ∀ c ∈ s, (c == '"') = false := fun c hc => by
  rw [beq_eq_false_iff_ne]
  exact fun e => h (e ▸ hc)

theorem seconds_cons {α : Type} (a b : α) (rest : List α) :
    seconds (a :: rest) = seconds (b :: rest) := by
  cases rest <;> rfl

/-- Text without quotes in front changes no string. -/
theorem strings_append {s : Text} (h : '"' ∉ s) (rest : Text) :
    strings (s ++ rest) = strings rest := by
  cases hc : Text.cutAt '"' rest with
  | none =>
    have hr := Text.cutAt_eq_none.mp hc
    have hsr : '"' ∉ s ++ rest := by rw [List.mem_append]; exact not_or.mpr ⟨h, hr⟩
    rw [strings, strings, Text.splitWhen_singleton (beq_quote hsr),
      Text.splitWhen_singleton (beq_quote hr)]
    exact seconds_cons _ _ _
  | some p =>
    obtain ⟨rfl, hb⟩ := Text.cutAt_eq_some.mp hc
    have hsb : '"' ∉ s ++ p.1 := by rw [List.mem_append]; exact not_or.mpr ⟨h, hb⟩
    rw [← List.append_assoc, strings, strings, Text.splitWhen_append (beq_quote hsb) rfl,
      Text.splitWhen_append (beq_quote hb) rfl]
    exact seconds_cons _ _ _

theorem strings_cons {c : Char} (h : c ≠ '"') (rest : Text) :
    strings (c :: rest) = strings rest := by
  have hs : '"' ∉ [c] := fun hm => h (List.mem_singleton.mp hm).symm
  exact strings_append hs rest

theorem strings_quoted {s : Text} (h : '"' ∉ s) (rest : Text) :
    strings ('"' :: (s ++ '"' :: rest)) = s :: strings rest := by
  have hopen : Text.splitWhen (· == '"') ([] ++ '"' :: (s ++ '"' :: rest)) =
      [] :: Text.splitWhen (· == '"') (s ++ '"' :: rest) :=
    Text.splitWhen_append (List.forall_mem_nil _) rfl _
  rw [List.nil_append] at hopen
  rw [strings, hopen, Text.splitWhen_append (beq_quote h) rfl, seconds, strings]

theorem strings_construct {name literal : Text} (hn : '"' ∉ name) (hq : '"' ∉ literal)
    (rest : Text) : strings (construct name literal ++ rest) = literal :: strings rest := by
  rw [Prepared.construct_append, strings_append hn, strings_cons (by decide), strings_quoted hq,
    strings_cons (by decide)]

/-- The strings that are read are those of the text. -/
theorem mem_strings_of_spells {lexemes : List Lexeme} {text : Text} (h : Spells lexemes text) :
    ∀ s, .quoted s ∈ lexemes → s ∈ strings text := by
  induction h with
  | nil => nofun
  | blank hb _ ih =>
    intro s hs
    rw [strings_cons fun e => isPlain_of_isBlank hb (by simp [e])]
    exact ih s hs
  | mark m _ ih =>
    intro s hs
    rw [strings_cons fun e => isPlain_char m (by simp [e])]
    exact ih s (by simpa using hs)
  | quoted hq _ ih =>
    intro s hs
    rw [strings_quoted hq]
    rcases List.mem_cons.mp hs with hs | hs
    · cases hs; exact List.mem_cons_self
    · exact List.mem_cons_of_mem _ (ih s hs)
  | @name c more _ text hc hm _ _ ih =>
    intro s hs
    have hq : '"' ∉ c :: more := fun hq => by
      rcases List.mem_cons.mp hq with rfl | hq
      · cases hc
      · exact Lexeme.ne_quote_of_isNameRest (hm _ hq) rfl
    rw [← List.cons_append, strings_append hq]
    exact ih s (by simpa using hs)

/-! ## Strings of prepared text -/

/-- The text is what a literal among the tokens is built from: hex digits with their mark, a
decimal with the minus before it if that is folded, or a bracket group of a vector. -/
inductive IsLiteralOf (tokens : List Token) : Text → Prop where
  | hex {text : Text} (h : ⟨.run, text⟩ ∈ tokens) (hc : Literal.classify text = .hex) :
    IsLiteralOf tokens text
  | decimal {text : Text} (h : ⟨.run, text⟩ ∈ tokens) (hc : Literal.classify text = .decimal) :
    IsLiteralOf tokens text
  | negated {text : Text} (h : [⟨.operator, ['-']⟩, ⟨.run, text⟩] <:+: tokens)
    (hd : Literal.isDecimal text = true) : IsLiteralOf tokens ('-' :: text)
  | group {text group : Text} (h : ⟨.run, text⟩ ∈ tokens) (hc : Literal.classify text = .vector)
    (hg : group ∈ Literal.groups ((Literal.interior? text).getD text)) {v : Vec}
    (hv : Vec.ofText ('[' :: (group ++ [']'])) = .ok v) :
    IsLiteralOf tokens ('[' :: (group ++ [']']))

theorem IsLiteralOf.mono {tokens tokens' : List Token} {s : Text} (h : IsLiteralOf tokens s)
    (hs : tokens <:+: tokens') : IsLiteralOf tokens' s := by
  cases h with
  | hex h hc => exact .hex (hs.subset h) hc
  | decimal h hc => exact .decimal (hs.subset h) hc
  | negated h hd => exact .negated (h.trans hs) hd
  | group h hc hg hv => exact .group (hs.subset h) hc hg hv

theorem of_mem_strings_group {g : Text} (hg : '"' ∉ g) {s rest : Text}
    (h : s ∈ strings (Prepared.group g ++ rest)) :
    (s = '[' :: (g ++ [']']) ∧ ∃ v, Vec.ofText s = .ok v) ∨ s ∈ strings rest := by
  unfold Prepared.group at h
  dsimp only at h
  split at h
  · rename_i v hv
    have hq : '"' ∉ ['['] ++ g ++ [']'] := by simp [hg]
    rw [strings_construct (by decide) hq] at h
    rcases List.mem_cons.mp h with rfl | h
    · exact .inl ⟨rfl, v, hv⟩
    · exact .inr h
  · rw [strings_append hg] at h
    exact .inr h

theorem of_mem_strings_groups {s rest : Text} : ∀ {gs : List Text}, (∀ g ∈ gs, '"' ∉ g) →
    s ∈ strings (Text.join [','] (gs.map Prepared.group) ++ rest) →
    (∃ g ∈ gs, s = '[' :: (g ++ [']']) ∧ ∃ v, Vec.ofText s = .ok v) ∨ s ∈ strings rest
  | [], _, h => .inr h
  | [g], hg, h => by
    rw [List.map_singleton, Text.join_singleton] at h
    exact (of_mem_strings_group (hg g List.mem_cons_self) h).imp_left
      fun hs => ⟨g, List.mem_cons_self, hs⟩
  | g :: g' :: gs, hg, h => by
    rw [List.map_cons, Text.join_cons _ _ (by simp), List.append_assoc] at h
    rcases of_mem_strings_group (hg g List.mem_cons_self) h with hs | h
    · exact .inl ⟨g, List.mem_cons_self, hs⟩
    · rw [List.append_assoc, strings_append (by decide)] at h
      have ih := of_mem_strings_groups (fun f hf => hg f (List.mem_cons_of_mem g hf)) h
      exact ih.imp_left fun ⟨f, hf, hs⟩ => ⟨f, List.mem_cons_of_mem g hf, hs⟩

theorem quote_not_mem_of_isVector {text g : Text} (hv : Literal.isVector text = true)
    (hg : g ∈ Literal.groups ((Literal.interior? text).getD text)) : '"' ∉ g := by
  obtain ⟨interior, hi⟩ := Literal.exists_interior hv
  rw [hi] at hg
  exact fun hm => (ne_of_isItemChar (Literal.isItemChar_of_isVector hv hi g hg _ hm)).1 rfl

theorem of_mem_strings_piece {token : Token} (hq : '"' ∉ token.text) {s rest : Text}
    (h : s ∈ strings (Prepared.piece token ++ rest)) :
    IsLiteralOf [token] s ∨ s ∈ strings rest := by
  obtain ⟨kind, text⟩ := token
  cases kind with
  | operator =>
    have hp : '"' ∉ Prepared.piece ⟨.operator, text⟩ := by
      simp only [Prepared.piece]
      split
      · decide
      · exact hq
    rw [strings_append hp] at h
    exact .inr h
  | dot =>
    have hp : '"' ∉ Prepared.piece ⟨.dot, text⟩ := hq
    rw [strings_append hp] at h
    exact .inr h
  | run =>
    simp only [Prepared.piece] at h
    split at h
    · rename_i hc
      rw [strings_construct (by decide) hq] at h
      rcases List.mem_cons.mp h with rfl | h
      · exact .inl (.hex List.mem_cons_self hc)
      · exact .inr h
    · rename_i hc
      rw [strings_construct (by decide) hq] at h
      rcases List.mem_cons.mp h with rfl | h
      · exact .inl (.decimal List.mem_cons_self hc)
      · exact .inr h
    · rename_i hc
      have hv := Literal.isVector_of_classify hc
      refine (of_mem_strings_groups (fun g hg =>
        quote_not_mem_of_isVector hv (List.mem_filter.mp hg).1) h).imp_left ?_
      rintro ⟨g, hg, rfl, v, hv⟩
      exact .group List.mem_cons_self hc (List.mem_filter.mp hg).1 hv
    · rw [strings_append hq] at h
      exact .inr h

theorem isLiteralOf_fold {before : Option Token} {token next : Token}
    (hs : Prepared.isSign before token = true) (hd : Prepared.isDecimal next = true)
    (rest : List Token) : IsLiteralOf (token :: next :: rest) ('-' :: next.text) := by
  obtain ⟨kind, text⟩ := token
  obtain ⟨kind', text'⟩ := next
  simp only [Prepared.isSign, Prepared.isDecimal, Bool.and_eq_true, decide_eq_true_eq] at hs hd
  obtain ⟨⟨rfl, rfl⟩, -⟩ := hs
  obtain ⟨rfl, hdec⟩ := hd
  exact .negated ⟨[], rest, rfl⟩ hdec

/-- Along the pieces of tokens without quotes. -/
theorem isLiteralOf_of_mem_strings : ∀ (tokens : List Token) (before : Option Token),
    (∀ t ∈ tokens, '"' ∉ t.text) →
    ∀ s ∈ strings (Prepared.collect before [] tokens).flatten, IsLiteralOf tokens s
  | [], _, _ => nofun
  | token :: rest, before, hq => by
    intro s h
    by_cases hf : Prepared.Folds before token rest
    · obtain ⟨next, rest, rfl, hsign, hdec⟩ := hf.eq_cons
      have hnext : '"' ∉ '-' :: next.text := by
        simp [hq next (by simp)]
      rw [Prepared.collect_fold hsign hdec, List.flatten_cons,
        strings_construct (by decide) hnext] at h
      rcases List.mem_cons.mp h with rfl | h
      · exact isLiteralOf_fold hsign hdec rest
      · exact (isLiteralOf_of_mem_strings rest _
          (fun t ht => hq t (by simp [ht])) s h).mono ⟨[token, next], [], by simp⟩
    · rw [Prepared.collect_cons hf, List.flatten_cons] at h
      rcases of_mem_strings_piece (hq token List.mem_cons_self) h with h | h
      · exact h.mono ⟨[], rest, rfl⟩
      · exact (isLiteralOf_of_mem_strings rest _
          (fun t ht => hq t (List.mem_cons_of_mem token ht)) s h).mono ⟨[token], [], by simp⟩

/-! ## Expressions that have a value -/

theorem quote_not_mem_of_evaluate {text : Text} {q : Quantity} (h : evaluate text = .ok q) :
    '"' ∉ text := by
  intro hm
  have hs : '"' ∈ Text.stripped text := List.mem_filter.mpr ⟨hm, by decide⟩
  rw [← Token.flatMap_text_ofText] at hs
  obtain ⟨t, ht, hq⟩ := List.mem_flatMap.mp hs
  exact (sound_of_evaluate h t ht).2 hq

/-- **Strings come from literals.** An expression with a quote has no value. In the lexemes of one
that has a value, each string is the single argument of a constructor, no constructor is named
elsewhere, and each string is built from a literal of the expression. -/
theorem quote_free_of_evaluate (text : Text) :
    ('"' ∈ text → ∃ e, evaluate text = .error e) ∧
    ∀ q, evaluate text = .ok q → '"' ∉ text ∧ ∃ lexemes,
      Lexeme.ofText (prepare text) = .ok lexemes ∧ Constructs lexemes ∧
      ∀ s, .quoted s ∈ lexemes → IsLiteralOf (Token.ofText text) s := by
  constructor
  · intro hm
    cases h : evaluate text with
    | error e => exact ⟨e, rfl⟩
    | ok q => exact absurd hm (quote_not_mem_of_evaluate h)
  · intro q h
    obtain ⟨e, _, hs, hd⟩ := spells_of_evaluatePrepared h
    refine ⟨quote_not_mem_of_evaluate h, e.leaves, Lexeme.ofText_eq_ok.mpr hs, e.constructs hd, ?_⟩
    intro s hm
    exact isLiteralOf_of_mem_strings _ none (fun t ht => (sound_of_evaluate h t ht).2) s
      (mem_strings_of_spells hs s hm)

/-- A constructor that is called by name, and a literal with its sign. -/
theorem quote_free_of_evaluate_minus_two :
    (∃ e, evaluate "ScalarFromText(\"1\")".toList = .error e) ∧
    evaluate "-2".toList = .ok (.scalar (.ofWhole (-2))) ∧ '"' ∉ "-2".toList ∧ ∃ lexemes,
      Lexeme.ofText (prepare "-2".toList) = .ok lexemes ∧ Constructs lexemes ∧
      ∀ s, .quoted s ∈ lexemes → IsLiteralOf (Token.ofText "-2".toList) s := by
  have hv : evaluate "-2".toList = .ok (.scalar (.ofWhole (-2))) := by decide +kernel
  exact ⟨(quote_free_of_evaluate _).1 (by decide), hv, (quote_free_of_evaluate _).2 _ hv⟩

end BinaryPoint
