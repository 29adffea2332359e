import BinaryPoint.Proofs.Expression.Derivation

/-!
# The grammar is unambiguous

The leaves of a derivation determine it, also when other lexemes follow that do not continue
its rule. The induction is on one of two derivations with the same front: each rule is told
apart by its first lexeme, and each starred part ends where no mark of its own follows.

* `Expression.leaves_inj`: two derivations of an expression with the same leaves are equal.
-/
namespace BinaryPoint.Derivation

theorem Additive.mark_inj {a a' : Additive} (h : a.mark = a'.mark) : a = a' := by
  cases a <;> cases a' <;> first | rfl | cases h

theorem Multiplicative.mark_inj {m m' : Multiplicative} (h : m.mark = m'.mark) : m = m' := by
  cases m <;> cases m' <;> first | rfl | cases h

theorem NotBefore.absurd {marks : List Mark} {m : Mark} {rest : List Lexeme} {P : Prop}
    (h : NotBefore marks (.mark m :: rest)) (hm : m ∈ marks) : P :=
  (h m hm rfl).elim

theorem Additive.mark_mem (a : Additive) : a.mark ∈ expressionMarks := by cases a <;> decide

theorem Multiplicative.mark_mem (m : Multiplicative) : m.mark ∈ termMarks := by cases m <;> decide

mutual

theorem Expression.prefix_inj : ∀ (e e' : Expression) {r r' : List Lexeme},
    e.leaves ++ r = e'.leaves ++ r' → NotBefore expressionMarks r → NotBefore expressionMarks r' →
    e = e' ∧ r = r'
  | .mk t ts, .mk t' ts', r, r', h, hr, hr' => by
    simp only [Expression.leaves, List.append_assoc] at h
    obtain ⟨rfl, tails⟩ := t.prefix_inj t' h (ts.notBefore hr) (ts'.notBefore hr')
    obtain ⟨rfl, rfl⟩ := ts.prefix_inj ts' tails hr hr'
    exact ⟨rfl, rfl⟩

theorem Terms.prefix_inj : ∀ (ts ts' : Terms) {r r' : List Lexeme},
    ts.leaves ++ r = ts'.leaves ++ r' → NotBefore expressionMarks r →
    NotBefore expressionMarks r' → ts = ts' ∧ r = r'
  | .nil, .nil, _, _, h, _, _ => ⟨rfl, h⟩
  | .nil, .cons op _ _, _, _, h, hr, _ => by
    simp only [Terms.leaves, List.nil_append, List.cons_append] at h
    rw [h] at hr; exact hr.absurd op.mark_mem
  | .cons op _ _, .nil, _, _, h, _, hr' => by
    simp only [Terms.leaves, List.nil_append, List.cons_append] at h
    rw [← h] at hr'; exact hr'.absurd op.mark_mem
  | .cons op t ts, .cons op' t' ts', r, r', h, hr, hr' => by
    simp only [Terms.leaves, List.cons_append, List.append_assoc, List.cons.injEq,
      Lexeme.mark.injEq] at h
    obtain ⟨ho, h⟩ := h
    obtain ⟨rfl, tails⟩ := t.prefix_inj t' h (ts.notBefore hr) (ts'.notBefore hr')
    obtain ⟨rfl, rfl⟩ := ts.prefix_inj ts' tails hr hr'
    exact ⟨by rw [Additive.mark_inj ho], rfl⟩

theorem Term.prefix_inj : ∀ (t t' : Term) {r r' : List Lexeme},
    t.leaves ++ r = t'.leaves ++ r' → NotBefore termMarks r → NotBefore termMarks r' →
    t = t' ∧ r = r'
  | .mk f fs, .mk f' fs', r, r', h, hr, hr' => by
    simp only [Term.leaves, List.append_assoc] at h
    obtain ⟨rfl, tails⟩ := f.prefix_inj f' h (fs.notBefore hr) (fs'.notBefore hr')
    obtain ⟨rfl, rfl⟩ := fs.prefix_inj fs' tails hr hr'
    exact ⟨rfl, rfl⟩

theorem Factors.prefix_inj : ∀ (fs fs' : Factors) {r r' : List Lexeme},
    fs.leaves ++ r = fs'.leaves ++ r' → NotBefore termMarks r → NotBefore termMarks r' →
    fs = fs' ∧ r = r'
  | .nil, .nil, _, _, h, _, _ => ⟨rfl, h⟩
  | .nil, .cons op _ _, _, _, h, hr, _ => by
    simp only [Factors.leaves, List.nil_append, List.cons_append] at h
    rw [h] at hr; exact hr.absurd op.mark_mem
  | .cons op _ _, .nil, _, _, h, _, hr' => by
    simp only [Factors.leaves, List.nil_append, List.cons_append] at h
    rw [← h] at hr'; exact hr'.absurd op.mark_mem
  | .cons op f fs, .cons op' f' fs', r, r', h, hr, hr' => by
    simp only [Factors.leaves, List.cons_append, List.append_assoc, List.cons.injEq,
      Lexeme.mark.injEq] at h
    obtain ⟨ho, h⟩ := h
    obtain ⟨rfl, tails⟩ := f.prefix_inj f' h (fs.notBefore hr) (fs'.notBefore hr')
    obtain ⟨rfl, rfl⟩ := fs.prefix_inj fs' tails hr hr'
    exact ⟨by rw [Multiplicative.mark_inj ho], rfl⟩

theorem Factor.prefix_inj : ∀ (f f' : Factor) {r r' : List Lexeme},
    f.leaves ++ r = f'.leaves ++ r' → NotBefore operandMarks r → NotBefore operandMarks r' →
    f = f' ∧ r = r'
  | .negated f, .negated f', r, r', h, hr, hr' => by
    simp only [Factor.leaves, List.cons_append, List.cons.injEq, true_and] at h
    obtain ⟨rfl, rfl⟩ := f.prefix_inj f' h hr hr'
    exact ⟨rfl, rfl⟩
  | .negated f, .plain o, r, r', h, _, _ => by
    obtain ⟨l, tail, e, ho⟩ := o.leaves_eq
    simp only [Factor.leaves, e, List.cons_append, List.cons.injEq] at h
    rw [← h.1] at ho; exact ho.elim
  | .plain o, .negated f, r, r', h, _, _ => by
    obtain ⟨l, tail, e, ho⟩ := o.leaves_eq
    simp only [Factor.leaves, e, List.cons_append, List.cons.injEq] at h
    rw [h.1] at ho; exact ho.elim
  | .plain o, .plain o', r, r', h, hr, hr' => by
    obtain ⟨rfl, rfl⟩ := o.prefix_inj o' h hr hr'
    exact ⟨rfl, rfl⟩

theorem Operand.prefix_inj : ∀ (o o' : Operand) {r r' : List Lexeme},
    o.leaves ++ r = o'.leaves ++ r' → NotBefore operandMarks r → NotBefore operandMarks r' →
    o = o' ∧ r = r'
  | .mk p ms, .mk p' ms', r, r', h, hr, hr' => by
    simp only [Operand.leaves, List.append_assoc] at h
    obtain ⟨rfl, tails⟩ := p.prefix_inj p' h
    obtain ⟨rfl, rfl⟩ := ms.prefix_inj ms' tails hr hr'
    exact ⟨rfl, rfl⟩

theorem Methods.prefix_inj : ∀ (ms ms' : Methods) {r r' : List Lexeme},
    ms.leaves ++ r = ms'.leaves ++ r' → NotBefore operandMarks r → NotBefore operandMarks r' →
    ms = ms' ∧ r = r'
  | .nil, .nil, _, _, h, _, _ => ⟨rfl, h⟩
  | .nil, .cons _ _ _, _, _, h, hr, _ => by
    simp only [Methods.leaves, List.nil_append, List.cons_append] at h
    rw [h] at hr; exact hr.absurd (by decide)
  | .cons _ _ _, .nil, _, _, h, _, hr' => by
    simp only [Methods.leaves, List.nil_append, List.cons_append] at h
    rw [← h] at hr'; exact hr'.absurd (by decide)
  | .cons name as ms, .cons name' as' ms', r, r', h, hr, hr' => by
    simp only [Methods.leaves, List.cons_append, List.append_assoc, List.cons.injEq, true_and,
      Lexeme.name.injEq] at h
    obtain ⟨rfl, h⟩ := h
    obtain ⟨rfl, tails⟩ := as.prefix_inj as' h
    obtain ⟨rfl, rfl⟩ := ms.prefix_inj ms' tails hr hr'
    exact ⟨rfl, rfl⟩

theorem Primary.prefix_inj : ∀ (p p' : Primary) {r r' : List Lexeme},
    p.leaves ++ r = p'.leaves ++ r' → p = p' ∧ r = r'
  | .group e, .group e', r, r', h => by
    simp only [Primary.leaves, List.cons_append, List.append_assoc, List.cons.injEq, true_and,
      List.nil_append] at h
    obtain ⟨rfl, tails⟩ := e.prefix_inj e' h (notBefore_mark (by decide)) (notBefore_mark (by decide))
    cases tails; exact ⟨rfl, rfl⟩
  | .function name as, .function name' as', r, r', h => by
    simp only [Primary.leaves, List.cons_append, List.cons.injEq, Lexeme.name.injEq] at h
    obtain ⟨rfl, h⟩ := h
    obtain ⟨rfl, rfl⟩ := as.prefix_inj as' h
    exact ⟨rfl, rfl⟩
  | .member holder name as, .member holder' name' as', r, r', h => by
    simp only [Primary.leaves, List.cons_append, List.cons.injEq, Lexeme.name.injEq, true_and] at h
    obtain ⟨rfl, rfl, h⟩ := h
    obtain ⟨rfl, rfl⟩ := as.prefix_inj as' h
    exact ⟨rfl, rfl⟩
  | .function name as, .member holder name' as', r, r', h => by
    cases as <;> simp [Primary.leaves, Arguments.leaves] at h
  | .member holder name as, .function name' as', r, r', h => by
    cases as' <;> simp [Primary.leaves, Arguments.leaves] at h
  | .group _, .function _ _, _, _, h => by simp [Primary.leaves] at h
  | .group _, .member _ _ _, _, _, h => by simp [Primary.leaves] at h
  | .function _ _, .group _, _, _, h => by simp [Primary.leaves] at h
  | .member _ _ _, .group _, _, _, h => by simp [Primary.leaves] at h

theorem Arguments.prefix_inj : ∀ (as as' : Arguments) {r r' : List Lexeme},
    as.leaves ++ r = as'.leaves ++ r' → as = as' ∧ r = r'
  | .nil, .nil, _, _, h => by
    simp only [Arguments.leaves, List.cons_append, List.nil_append, List.cons.injEq, true_and] at h
    exact ⟨rfl, h⟩
  | .nil, .cons a _, _, _, h => by
    simp only [Arguments.leaves, List.cons_append, List.nil_append, List.cons.injEq, true_and,
      List.append_assoc] at h
    exact absurd (by rw [← h]; rfl) (a.head_ne_closeParen _)
  | .cons a _, .nil, _, _, h => by
    simp only [Arguments.leaves, List.cons_append, List.nil_append, List.cons.injEq, true_and,
      List.append_assoc] at h
    exact absurd (by rw [h]; rfl) (a.head_ne_closeParen _)
  | .cons a as, .cons a' as', r, r', h => by
    simp only [Arguments.leaves, List.cons_append, List.cons.injEq, true_and, List.append_assoc,
      List.nil_append] at h
    obtain ⟨rfl, tails⟩ := a.prefix_inj a' h (as.notBefore r) (as'.notBefore r')
    obtain ⟨rfl, rfl⟩ := as.more_inj as' tails
    exact ⟨rfl, rfl⟩

theorem Arguments.more_inj : ∀ (as as' : Arguments) {r r' : List Lexeme},
    as.moreLeaves ++ .mark .closeParen :: r = as'.moreLeaves ++ .mark .closeParen :: r' →
    as = as' ∧ r = r'
  | .nil, .nil, _, _, h => by cases h; exact ⟨rfl, rfl⟩
  | .nil, .cons _ _, _, _, h => by simp [Arguments.moreLeaves] at h
  | .cons _ _, .nil, _, _, h => by simp [Arguments.moreLeaves] at h
  | .cons a as, .cons a' as', r, r', h => by
    simp only [Arguments.moreLeaves, List.cons_append, List.cons.injEq, true_and,
      List.append_assoc] at h
    obtain ⟨rfl, tails⟩ := a.prefix_inj a' h (as.notBefore r) (as'.notBefore r')
    obtain ⟨rfl, rfl⟩ := as.more_inj as' tails
    exact ⟨rfl, rfl⟩

theorem Argument.prefix_inj : ∀ (a a' : Argument) {r r' : List Lexeme},
    a.leaves ++ r = a'.leaves ++ r' → NotBefore expressionMarks r → NotBefore expressionMarks r' →
    a = a' ∧ r = r'
  | .text t, .text t', _, _, h, _, _ => by cases h; exact ⟨rfl, rfl⟩
  | .text t, .value e, _, _, h, _, _ => by
    obtain ⟨l, tail, he, ho⟩ := e.leaves_eq
    simp only [Argument.leaves, he, List.cons_append, List.cons.injEq] at h
    rw [← h.1] at ho; rcases ho with ho | ho <;> cases ho
  | .value e, .text t, _, _, h, _, _ => by
    obtain ⟨l, tail, he, ho⟩ := e.leaves_eq
    simp only [Argument.leaves, he, List.cons_append, List.cons.injEq] at h
    rw [h.1] at ho; rcases ho with ho | ho <;> cases ho
  | .value e, .value e', r, r', h, hr, hr' => by
    obtain ⟨rfl, rfl⟩ := e.prefix_inj e' h hr hr'
    exact ⟨rfl, rfl⟩

end

/-- **Unambiguity.** The leaves of an expression determine its derivation. -/
theorem Expression.leaves_inj {e e' : Expression} (h : e.leaves = e'.leaves) : e = e' :=
  (e.prefix_inj e' (r := []) (by rw [h]) (notBefore_nil _) (notBefore_nil _)).1

end BinaryPoint.Derivation
