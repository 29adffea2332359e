import BinaryPoint.Proofs.Expression.Reading

/-!
# Recovering a derivation

When a phrase of the grammar succeeds, the lexemes that it consumed are the leaves of a
derivation of its rule, the derivation stays within the nesting that was allowed, and its
value is the value of the phrase. Each rule is treated over an arbitrary phrase for the
expressions one level further in (`Recovers`); `Expression.of_read` ties the knot by induction
on the number of levels.
-/
namespace BinaryPoint.Derivation

open Phrase

variable {α β : Type}

/-! ## Taking successful phrases apart -/

theorem andThen_eq_ok {p : Phrase α} {q : α → Phrase β} {s rest : List Lexeme} {b : β}
    (h : (p.andThen q).read s = .ok (b, rest)) :
    ∃ a s', p.read s = .ok (a, s') ∧ (q a).read s' = .ok (b, rest) := by
  simp only [andThen] at h
  split at h
  · rename_i a s' hp; exact ⟨a, s', hp, h⟩
  · cases h

theorem check_eq_ok {p : Phrase α} {f : α → Except EvalError β} {s rest : List Lexeme} {b : β}
    (h : (p.check f).read s = .ok (b, rest)) : ∃ a, p.read s = .ok (a, rest) ∧ f a = .ok b := by
  simp only [check] at h
  split at h
  · rename_i a s' hp
    split at h
    · rename_i hf; cases h; exact ⟨a, hp, hf⟩
    · cases h
  · cases h

theorem one_eq_ok {expected : Expected} {value : Lexeme → Option α} {s rest : List Lexeme} {a : α}
    (h : (one expected value).read s = .ok (a, rest)) : ∃ l, s = l :: rest ∧ value l = some a := by
  cases s with
  | nil => cases h
  | cons l tail =>
    simp only [one] at h
    split at h
    · rename_i hv; cases h; exact ⟨l, rfl, hv⟩
    · cases h

theorem mark_eq_ok {m : Mark} {expected : Expected} {s rest : List Lexeme} {u : Unit}
    (h : (Phrase.mark m expected).read s = .ok (u, rest)) : s = .mark m :: rest := by
  obtain ⟨l, rfl, hl⟩ := one_eq_ok h
  split at hl
  · rename_i e; rw [e]
  · cases hl

theorem name_eq_ok {expected : Expected} {s rest : List Lexeme} {name : Text}
    (h : (Phrase.name expected).read s = .ok (name, rest)) : s = .name name :: rest := by
  obtain ⟨l, rfl, hl⟩ := one_eq_ok h
  split at hl
  · cases hl; rfl
  · cases hl

theorem byHead_eq_ok {expected : Expected} {next : Lexeme → Option (Phrase α)} {s rest : List Lexeme}
    {a : α} (h : (byHead expected next).read s = .ok (a, rest)) :
    ∃ l tail p, s = l :: tail ∧ next l = some p ∧ p.read tail = .ok (a, rest) := by
  cases s with
  | nil => cases h
  | cons l tail =>
    simp only [byHead] at h
    split at h
    · rename_i p hp; exact ⟨l, tail, p, rfl, hp, h⟩
    · cases h

theorem ifMark_eq_ok {m : Mark} {yes no : Phrase α} {s rest : List Lexeme} {a : α}
    (h : (ifMark m yes no).read s = .ok (a, rest)) :
    (∃ tail, s = .mark m :: tail ∧ yes.read tail = .ok (a, rest)) ∨ no.read s = .ok (a, rest) := by
  simp only [ifMark] at h
  split at h
  · split at h
    · rename_i tail e; exact .inl ⟨tail, by rw [e], h⟩
    · exact .inr h
  · exact .inr h

theorem orMark_eq_ok {m : Mark} {b : α} {no : Phrase α} {s rest : List Lexeme} {a : α}
    (h : (orMark m b no).read s = .ok (a, rest)) :
    (s = .mark m :: rest ∧ a = b) ∨ no.read s = .ok (a, rest) := by
  simp only [orMark] at h
  split at h
  · split at h
    · rename_i e; cases h; exact .inl ⟨by rw [e], rfl⟩
    · exact .inr h
  · exact .inr h

theorem chain_eq_ok {first : Phrase α} {next : α → Lexeme → Option (Phrase α)}
    {s rest : List Lexeme} {b : α} (h : (chain first next).read s = .ok (b, rest)) :
    ∃ a s', first.read s = .ok (a, s') ∧ continueFrom next a s' = .ok (b, rest) := by
  simp only [chain] at h
  split at h
  · rename_i a s' hf; exact ⟨a, s', hf, h⟩
  · cases h

/-! ## Rules -/

/-- What the phrase reads is an expression nested less than `levels` deep. -/
def Recovers (p : Phrase Quantity) (levels : Nat) : Prop :=
  ∀ s q rest, p.read s = .ok (q, rest) →
    ∃ e : Expression, s = e.leaves ++ rest ∧ e.nesting < levels ∧ e.denote = .ok q

section
variable {p : Phrase Quantity} {levels : Nat} (hp : Recovers p levels)

include hp in
theorem Argument.of_read {s rest : List Lexeme} {v : BinaryPoint.Argument}
    (h : (Grammar.argument p).read s = .ok (v, rest)) :
    ∃ a : Argument, s = a.leaves ++ rest ∧ a.nesting ≤ levels ∧ a.denote = .ok v := by
  simp only [Grammar.argument] at h
  split at h
  · cases h; exact ⟨.text _, rfl, Nat.zero_le _, rfl⟩
  · obtain ⟨q, hq, hv⟩ := check_eq_ok h
    cases hv
    obtain ⟨e, rfl, hn, hd⟩ := hp _ _ _ hq
    exact ⟨.value e, rfl, hn, by rw [Argument.denote, hd]; rfl⟩

include hp in
theorem Arguments.of_continueFrom {s rest : List Lexeme}
    (collected : List BinaryPoint.Argument) {all : List BinaryPoint.Argument}
    (h : continueFrom (Grammar.nextArgument p) collected s = .ok (all, rest)) :
    ∃ (as : Arguments) (values : List BinaryPoint.Argument), s = as.moreLeaves ++ rest ∧
      as.nesting ≤ levels ∧ as.denote = .ok values ∧ all = values.reverse ++ collected := by
  fun_induction continueFrom (Grammar.nextArgument p) collected s with
  | case1 => cases h; exact ⟨.nil, [], rfl, Nat.zero_le _, rfl, rfl⟩
  | case2 => cases h; exact ⟨.nil, [], rfl, Nat.zero_le _, rfl, rfl⟩
  | case3 collected l tail q hn b s' hq ih =>
    obtain ⟨as, values, rfl, hl, hd, rfl⟩ := ih h
    unfold Grammar.nextArgument at hn
    split at hn
    · cases hn
      obtain ⟨v, hv, hb⟩ := check_eq_ok hq
      cases hb
      obtain ⟨a, rfl, hal, had⟩ := Argument.of_read hp hv
      refine ⟨.cons a as, v :: values, ?_, Nat.max_le.mpr ⟨hal, hl⟩, ?_, ?_⟩
      · simp [Arguments.moreLeaves]
      · rw [Arguments.denote, had, hd]; rfl
      · simp
    · cases hn
  | case4 => cases h

include hp in
theorem Arguments.of_read {s rest : List Lexeme} {values : List BinaryPoint.Argument}
    (h : (Grammar.arguments p).read s = .ok (values, rest)) :
    ∃ as : Arguments, s = as.leaves ++ rest ∧ as.nesting ≤ levels ∧ as.denote = .ok values := by
  obtain ⟨_, s₁, ho, h⟩ := andThen_eq_ok h
  obtain rfl := mark_eq_ok ho
  rcases orMark_eq_ok h with ⟨rfl, rfl⟩ | h
  · exact ⟨.nil, rfl, Nat.zero_le _, rfl⟩
  · obtain ⟨all, s₂, hall, h⟩ := andThen_eq_ok h
    obtain ⟨_, hm, hv⟩ := check_eq_ok h
    obtain rfl := mark_eq_ok hm
    cases hv
    obtain ⟨collected, s₃, hf, hc⟩ := chain_eq_ok hall
    obtain ⟨v, hv, hb⟩ := check_eq_ok hf
    cases hb
    obtain ⟨a, rfl, hal, had⟩ := Argument.of_read hp hv
    clear hall hf hv
    obtain ⟨as, values, rfl, hl, hd, rfl⟩ := Arguments.of_continueFrom hp _ hc
    refine ⟨.cons a as, by simp [Arguments.leaves], Nat.max_le.mpr ⟨hal, hl⟩, ?_⟩
    rw [Arguments.denote, had, hd]; simp [bind, Except.bind, pure, Except.pure]

include hp in
theorem Primary.of_read {s rest : List Lexeme} {q : Quantity}
    (h : (Grammar.primary p).read s = .ok (q, rest)) :
    ∃ r : Primary, s = r.leaves ++ rest ∧ r.nesting ≤ levels ∧ r.denote = .ok q := by
  obtain ⟨l, tail, phrase, rfl, hl, h⟩ := byHead_eq_ok h
  split at hl
  · cases hl
    obtain ⟨q', s', hq, h⟩ := andThen_eq_ok h
    obtain ⟨_, hm, hv⟩ := check_eq_ok h
    obtain rfl := mark_eq_ok hm
    cases hv
    obtain ⟨e, rfl, hn, hd⟩ := hp _ _ _ hq
    exact ⟨.group e, by simp [Primary.leaves], hn, hd⟩
  · rename_i holder
    cases hl
    rcases ifMark_eq_ok h with ⟨tail, rfl, h⟩ | h
    · obtain ⟨name, s', hn, h⟩ := andThen_eq_ok h
      obtain rfl := name_eq_ok hn
      obtain ⟨values, ha, hc⟩ := check_eq_ok h
      obtain ⟨as, rfl, hl, hd⟩ := Arguments.of_read hp ha
      exact ⟨.member holder name as, rfl, hl, by rw [Primary.denote, hd]; exact hc⟩
    · obtain ⟨values, ha, hc⟩ := check_eq_ok h
      obtain ⟨as, rfl, hl, hd⟩ := Arguments.of_read hp ha
      exact ⟨.function holder as, rfl, hl, by rw [Primary.denote, hd]; exact hc⟩
  · cases hl

include hp in
theorem Methods.of_continueFrom {s rest : List Lexeme} (receiver : Quantity) {q : Quantity}
    (h : continueFrom (Grammar.nextMethod p) receiver s = .ok (q, rest)) :
    ∃ ms : Methods, s = ms.leaves ++ rest ∧ ms.nesting ≤ levels ∧ ms.denote receiver = .ok q := by
  fun_induction continueFrom (Grammar.nextMethod p) receiver s with
  | case1 => cases h; exact ⟨.nil, rfl, Nat.zero_le _, rfl⟩
  | case2 => cases h; exact ⟨.nil, rfl, Nat.zero_le _, rfl⟩
  | case3 receiver l tail phrase hn b s' hq ih =>
    obtain ⟨ms, rfl, hl, hd⟩ := ih h
    unfold Grammar.nextMethod at hn
    split at hn
    · cases hn
      obtain ⟨name, s₁, hname, hq⟩ := andThen_eq_ok hq
      obtain rfl := name_eq_ok hname
      obtain ⟨values, ha, hc⟩ := check_eq_ok hq
      obtain ⟨as, rfl, hal, had⟩ := Arguments.of_read hp ha
      refine ⟨.cons name as ms, by simp [Methods.leaves], Nat.max_le.mpr ⟨hal, hl⟩, ?_⟩
      rw [Methods.denote, had]; simp only [bind, Except.bind, hc, hd]
    · cases hn
  | case4 => cases h

include hp in
theorem Operand.of_read {s rest : List Lexeme} {q : Quantity}
    (h : (Grammar.operand p).read s = .ok (q, rest)) :
    ∃ o : Operand, s = o.leaves ++ rest ∧ o.nesting ≤ levels ∧ o.denote = .ok q := by
  obtain ⟨receiver, s', hr, hm⟩ := chain_eq_ok h
  obtain ⟨r, rfl, hrl, hrd⟩ := Primary.of_read hp hr
  obtain ⟨ms, rfl, hl, hd⟩ := Methods.of_continueFrom hp receiver hm
  refine ⟨.mk r ms, by simp [Operand.leaves], Nat.max_le.mpr ⟨hrl, hl⟩, ?_⟩
  rw [Operand.denote, hrd]; exact hd

theorem exists_factor (o : Operand) : ∀ n : Nat, ∃ f : Factor,
    f.leaves = List.replicate n (.mark .minus) ++ o.leaves ∧ f.nesting = o.nesting ∧
      f.denote = o.denote >>= Quantity.negateTimes n
  | 0 => ⟨.plain o, rfl, rfl, by rw [Factor.denote]; cases o.denote <;> rfl⟩
  | n + 1 => by
    obtain ⟨f, hl, hn, hd⟩ := exists_factor o n
    refine ⟨.negated f, by rw [Factor.leaves, hl]; rfl, hn, ?_⟩
    rw [Factor.denote, hd]
    cases o.denote with
    | error e => rfl
    | ok q => exact (negateTimes_succ n q).symm

theorem takeWhile_minus (s : List Lexeme) : s.takeWhile (· = .mark .minus) =
    List.replicate (s.takeWhile (· = .mark .minus)).length (.mark .minus) := by
  rw [List.eq_replicate_iff]
  exact ⟨rfl, fun l hl => by simpa using List.all_eq_true.mp List.all_takeWhile l hl⟩

include hp in
theorem Factor.of_read {s rest : List Lexeme} {q : Quantity}
    (h : (Grammar.factor p).read s = .ok (q, rest)) :
    ∃ f : Factor, s = f.leaves ++ rest ∧ f.nesting ≤ levels ∧ f.denote = .ok q := by
  simp only [Grammar.factor, afterMarks] at h
  obtain ⟨r, ho, hq⟩ := check_eq_ok h
  obtain ⟨o, hs, hl, hd⟩ := Operand.of_read hp ho
  obtain ⟨f, hfl, hfn, hfd⟩ := exists_factor o (s.takeWhile (· = .mark .minus)).length
  refine ⟨f, ?_, by rw [hfn]; exact hl, by rw [hfd, hd]; exact hq⟩
  rw [hfl, List.append_assoc, ← hs, ← takeWhile_minus, List.takeWhile_append_dropWhile]

theorem nextOperand_eq_some {operation : Lexeme → Option Operation} {right : Phrase Quantity}
    {left : Quantity} {l : Lexeme} {phrase : Phrase Quantity}
    (h : Grammar.nextOperand operation right left l = some phrase) :
    ∃ op, operation l = some op ∧ phrase = right.check (Quantity.apply op left) := by
  obtain ⟨op, ho, he⟩ := Option.map_eq_some_iff.mp h
  exact ⟨op, ho, he.symm⟩

theorem multiplicative_eq_some {l : Lexeme} {op : Operation}
    (h : Grammar.multiplicative l = some op) :
    ∃ m : Multiplicative, l = .mark m.mark ∧ op = m.operation := by
  unfold Grammar.multiplicative at h
  split at h
  · cases h; exact ⟨.star, rfl, rfl⟩
  · cases h; exact ⟨.slash, rfl, rfl⟩
  · cases h

theorem additive_eq_some {l : Lexeme} {op : Operation} (h : Grammar.additive l = some op) :
    ∃ a : Additive, l = .mark a.mark ∧ op = a.operation := by
  unfold Grammar.additive at h
  split at h
  · cases h; exact ⟨.plus, rfl, rfl⟩
  · cases h; exact ⟨.minus, rfl, rfl⟩
  · cases h

include hp in
theorem Factors.of_continueFrom {s rest : List Lexeme} (left : Quantity) {q : Quantity}
    (h : continueFrom (Grammar.nextOperand Grammar.multiplicative (Grammar.factor p)) left s =
      .ok (q, rest)) :
    ∃ fs : Factors, s = fs.leaves ++ rest ∧ fs.nesting ≤ levels ∧ fs.denote left = .ok q := by
  fun_induction continueFrom (Grammar.nextOperand Grammar.multiplicative (Grammar.factor p)) left s with
  | case1 => cases h; exact ⟨.nil, rfl, Nat.zero_le _, rfl⟩
  | case2 => cases h; exact ⟨.nil, rfl, Nat.zero_le _, rfl⟩
  | case3 left l tail phrase hn b s' hq ih =>
    obtain ⟨fs, rfl, hl, hd⟩ := ih h
    obtain ⟨op, ho, rfl⟩ := nextOperand_eq_some hn
    obtain ⟨m, rfl, rfl⟩ := multiplicative_eq_some ho
    obtain ⟨r, hr, hb⟩ := check_eq_ok hq
    obtain ⟨f, rfl, hfl, hfd⟩ := Factor.of_read hp hr
    refine ⟨.cons m f fs, by simp [Factors.leaves], Nat.max_le.mpr ⟨hfl, hl⟩, ?_⟩
    rw [Factors.denote, hfd]; simp only [bind, Except.bind, hb, hd]
  | case4 => cases h

include hp in
theorem Term.of_read {s rest : List Lexeme} {q : Quantity}
    (h : (Grammar.term p).read s = .ok (q, rest)) :
    ∃ t : Term, s = t.leaves ++ rest ∧ t.nesting ≤ levels ∧ t.denote = .ok q := by
  obtain ⟨left, s', hf, hc⟩ := chain_eq_ok h
  obtain ⟨f, rfl, hfl, hfd⟩ := Factor.of_read hp hf
  obtain ⟨fs, rfl, hl, hd⟩ := Factors.of_continueFrom hp left hc
  refine ⟨.mk f fs, by simp [Term.leaves], Nat.max_le.mpr ⟨hfl, hl⟩, ?_⟩
  rw [Term.denote, hfd]; exact hd

include hp in
theorem Terms.of_continueFrom {s rest : List Lexeme} (left : Quantity) {q : Quantity}
    (h : continueFrom (Grammar.nextOperand Grammar.additive (Grammar.term p)) left s =
      .ok (q, rest)) :
    ∃ ts : Terms, s = ts.leaves ++ rest ∧ ts.nesting ≤ levels ∧ ts.denote left = .ok q := by
  fun_induction continueFrom (Grammar.nextOperand Grammar.additive (Grammar.term p)) left s with
  | case1 => cases h; exact ⟨.nil, rfl, Nat.zero_le _, rfl⟩
  | case2 => cases h; exact ⟨.nil, rfl, Nat.zero_le _, rfl⟩
  | case3 left l tail phrase hn b s' hq ih =>
    obtain ⟨ts, rfl, hl, hd⟩ := ih h
    obtain ⟨op, ho, rfl⟩ := nextOperand_eq_some hn
    obtain ⟨a, rfl, rfl⟩ := additive_eq_some ho
    obtain ⟨r, hr, hb⟩ := check_eq_ok hq
    obtain ⟨t, rfl, htl, htd⟩ := Term.of_read hp hr
    refine ⟨.cons a t ts, by simp [Terms.leaves], Nat.max_le.mpr ⟨htl, hl⟩, ?_⟩
    rw [Terms.denote, htd]; simp only [bind, Except.bind, hb, hd]
  | case4 => cases h

include hp in
theorem Expression.of_sum {s rest : List Lexeme} {q : Quantity}
    (h : (Grammar.sum p).read s = .ok (q, rest)) :
    ∃ e : Expression, s = e.leaves ++ rest ∧ e.nesting ≤ levels ∧ e.denote = .ok q := by
  obtain ⟨left, s', ht, hc⟩ := chain_eq_ok h
  obtain ⟨t, rfl, htl, htd⟩ := Term.of_read hp ht
  obtain ⟨ts, rfl, hl, hd⟩ := Terms.of_continueFrom hp left hc
  refine ⟨.mk t ts, by simp [Expression.leaves], Nat.max_le.mpr ⟨htl, hl⟩, ?_⟩
  rw [Expression.denote, htd]; exact hd

end

/-- The induction is on the number of levels: without any, nothing further in is read. -/
theorem recovers_inner (limit : Nat) : ∀ levels : Nat, Recovers (inner limit levels) levels
  | 0 => fun _ _ _ h => nomatch h
  | levels + 1 => fun s q rest h => by
    rw [inner, expression_eq] at h
    obtain ⟨e, hs, hn, hd⟩ := Expression.of_sum (recovers_inner limit levels) h
    exact ⟨e, hs, Nat.lt_succ_of_le hn, hd⟩

/-- **Recovery.** What the phrase for expressions consumes is a derivation of its value. -/
theorem Expression.of_read {limit levels : Nat} {s rest : List Lexeme} {q : Quantity}
    (h : (Grammar.expression limit levels).read s = .ok (q, rest)) :
    ∃ e : Expression, s = e.leaves ++ rest ∧ e.nesting ≤ levels ∧ e.denote = .ok q := by
  rw [expression_eq] at h
  exact Expression.of_sum (recovers_inner limit levels) h

end BinaryPoint.Derivation
