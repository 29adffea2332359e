import BinaryPoint.Proofs.Expression.Calls
import BinaryPoint.Proofs.Expression.Exactness

/-!
# Beyond the depth limit

A derivation that has a value but is nested more deeply than the levels that are left is refused
for its depth, and for nothing else: all that is evaluated before the first expression beyond the
limit has a value. So the limit alone decides between the value and the refusal.

* `Expression.tooDeep`: reading a derivation that is nested too deeply.
* `evaluatePrepared_of_denote`: the outcome of a text that spells a derivation with a value.
-/
namespace BinaryPoint.Derivation

open Phrase

variable {α : Type} {first p : Phrase α} {next : α → Lexeme → Option (Phrase α)} {a b : α}
  {l : Lexeme} {ls ls' rest : List Lexeme} {d : Except EvalError α} {e : EvalError}

/-! ## Chains that stop -/

theorem reads_chain_ok (hf : Reads first ls (.ok a) (ls' ++ rest))
    (hr : Continues next a ls' d rest) : Reads (chain first next) (ls ++ ls') d rest := by
  have h : ∀ b, Except.ok a = (.ok b : Except EvalError α) → Continues next b ls' d rest := by
    intro b hb
    cases hb
    exact hr
  exact reads_chain hf h

theorem reads_chain_error (hf : Reads first ls (.error e) (ls' ++ rest)) :
    Reads (chain first next) (ls ++ ls') (.error e) rest := by
  have h : ∀ b, Except.error e = (.ok b : Except EvalError α) → Continues next b ls' (.ok b) rest :=
    fun _ h => nomatch h
  exact reads_chain hf h

theorem continues_cons_ok (hn : next a l = some p) (hp : Reads p ls (.ok b) (ls' ++ rest))
    (hr : Continues next b ls' d rest) : Continues next a (l :: (ls ++ ls')) d rest := by
  have h : ∀ c, Except.ok b = (.ok c : Except EvalError α) → Continues next c ls' d rest := by
    intro c hc
    cases hc
    exact hr
  exact continues_cons hn hp h

theorem continues_cons_error (hn : next a l = some p) (hp : Reads p ls (.error e) (ls' ++ rest)) :
    Continues next a (l :: (ls ++ ls')) (.error e) rest := by
  have h : ∀ c, Except.error e = (.ok c : Except EvalError α) → Continues next c ls' (.ok c) rest :=
    fun _ h => nomatch h
  exact continues_cons hn hp h

section Arguments

variable {inner : Phrase Quantity} {argument : Argument} {more : Arguments} {rest : List Lexeme}
  {e : EvalError}

theorem reads_arguments_first_error (h : Reads (Grammar.argument inner) argument.leaves (.error e)
      (more.moreLeaves ++ .mark .closeParen :: rest)) :
    Reads (Grammar.arguments inner) (Arguments.cons argument more).leaves (.error e) rest := by
  have hm : ∀ v, (.error e : Except EvalError BinaryPoint.Argument) = .ok v →
      Continues (Grammar.nextArgument inner) [v] more.moreLeaves
        ((.ok [] : Except EvalError (List BinaryPoint.Argument)).map
          fun values => values.reverse ++ [v]) (.mark .closeParen :: rest) :=
    fun _ h => nomatch h
  exact reads_arguments h hm

theorem reads_arguments_more_error {value : BinaryPoint.Argument}
    (h : Reads (Grammar.argument inner) argument.leaves (.ok value)
      (more.moreLeaves ++ .mark .closeParen :: rest))
    (hc : Continues (Grammar.nextArgument inner) [value] more.moreLeaves (.error e)
      (.mark .closeParen :: rest)) :
    Reads (Grammar.arguments inner) (Arguments.cons argument more).leaves (.error e) rest := by
  have hm : ∀ v, (.ok value : Except EvalError BinaryPoint.Argument) = .ok v →
      Continues (Grammar.nextArgument inner) [v] more.moreLeaves
        ((.error e : Except EvalError (List BinaryPoint.Argument)).map
          fun values => values.reverse ++ [v]) (.mark .closeParen :: rest) := by
    intro v hv
    cases hv
    exact hc
  exact reads_arguments h hm

end Arguments

/-! ## Derivations -/

mutual

/-- **Reading beyond the limit.** With fewer levels left than a derivation needs, the phrase for
expressions refuses its leaves for their depth, if the derivation has a value at all. -/
theorem Expression.tooDeep (limit : Nat) : ∀ (e : Expression) (levels : Nat) (rest : List Lexeme)
    {q : Quantity}, e.denote = .ok q → levels < e.nesting → NotBefore expressionMarks rest →
    Reads (Grammar.expression limit levels) e.leaves (.error (.tooDeep limit)) rest
  | .mk first terms, levels, rest, q, hd, hn, hr => by
    obtain ⟨left, hf, ht⟩ := bind_eq_ok.mp hd
    rw [expression_eq]
    by_cases h : first.nesting ≤ levels
    · have hterms : levels < terms.nesting := by rw [Expression.nesting] at hn; omega
      have hfirst := first.reads limit levels _ h (terms.notBefore hr)
      rw [hf] at hfirst
      exact reads_chain_ok hfirst (terms.tooDeep limit levels rest ht hterms hr)
    · exact reads_chain_error (first.tooDeep limit levels _ hf (by omega) (terms.notBefore hr))

theorem Terms.tooDeep (limit : Nat) : ∀ (ts : Terms) (levels : Nat) (rest : List Lexeme)
    {left q : Quantity}, ts.denote left = .ok q → levels < ts.nesting →
    NotBefore expressionMarks rest →
    Continues (Grammar.nextOperand Grammar.additive (Grammar.term (inner limit levels))) left
      ts.leaves (.error (.tooDeep limit)) rest
  | .nil, _, _, _, _, _, hn, _ => absurd hn (Nat.not_lt_zero _)
  | .cons op term terms, levels, rest, left, q, hd, hn, hr => by
    obtain ⟨right, hterm, hd⟩ := bind_eq_ok.mp hd
    obtain ⟨next, hop, hterms⟩ := bind_eq_ok.mp hd
    by_cases h : term.nesting ≤ levels
    · have hrest : levels < terms.nesting := by rw [Terms.nesting] at hn; omega
      have ht := term.reads limit levels _ h (terms.notBefore hr)
      rw [hterm] at ht
      have hnext := reads_check (f := Quantity.apply op.operation left) ht
      rw [show Except.ok right >>= Quantity.apply op.operation left = .ok next from hop] at hnext
      exact continues_cons_ok (nextOperand_additive _ left op) hnext
        (terms.tooDeep limit levels rest hterms hrest hr)
    · have ht := term.tooDeep limit levels _ hterm (by omega) (terms.notBefore hr)
      exact continues_cons_error (nextOperand_additive _ left op) (reads_check ht)

theorem Term.tooDeep (limit : Nat) : ∀ (t : Term) (levels : Nat) (rest : List Lexeme)
    {q : Quantity}, t.denote = .ok q → levels < t.nesting → NotBefore termMarks rest →
    Reads (Grammar.term (inner limit levels)) t.leaves (.error (.tooDeep limit)) rest
  | .mk first factors, levels, rest, q, hd, hn, hr => by
    obtain ⟨left, hf, ht⟩ := bind_eq_ok.mp hd
    by_cases h : first.nesting ≤ levels
    · have hfactors : levels < factors.nesting := by rw [Term.nesting] at hn; omega
      have hfirst := first.reads limit levels _ h (factors.notBefore hr)
      rw [hf] at hfirst
      exact reads_chain_ok hfirst (factors.tooDeep limit levels rest ht hfactors hr)
    · exact reads_chain_error (first.tooDeep limit levels _ hf (by omega) (factors.notBefore hr))

theorem Factors.tooDeep (limit : Nat) : ∀ (fs : Factors) (levels : Nat) (rest : List Lexeme)
    {left q : Quantity}, fs.denote left = .ok q → levels < fs.nesting → NotBefore termMarks rest →
    Continues (Grammar.nextOperand Grammar.multiplicative (Grammar.factor (inner limit levels)))
      left fs.leaves (.error (.tooDeep limit)) rest
  | .nil, _, _, _, _, _, hn, _ => absurd hn (Nat.not_lt_zero _)
  | .cons op factor factors, levels, rest, left, q, hd, hn, hr => by
    obtain ⟨right, hfactor, hd⟩ := bind_eq_ok.mp hd
    obtain ⟨next, hop, hfactors⟩ := bind_eq_ok.mp hd
    by_cases h : factor.nesting ≤ levels
    · have hrest : levels < factors.nesting := by rw [Factors.nesting] at hn; omega
      have hf := factor.reads limit levels _ h (factors.notBefore hr)
      rw [hfactor] at hf
      have hnext := reads_check (f := Quantity.apply op.operation left) hf
      rw [show Except.ok right >>= Quantity.apply op.operation left = .ok next from hop] at hnext
      exact continues_cons_ok (nextOperand_multiplicative _ left op) hnext
        (factors.tooDeep limit levels rest hfactors hrest hr)
    · have hf := factor.tooDeep limit levels _ hfactor (by omega) (factors.notBefore hr)
      exact continues_cons_error (nextOperand_multiplicative _ left op) (reads_check hf)

theorem Factor.tooDeep (limit : Nat) (f : Factor) (levels : Nat) (rest : List Lexeme)
    {q : Quantity} (hd : f.denote = .ok q) (hn : levels < f.nesting)
    (hr : NotBefore operandMarks rest) :
    Reads (Grammar.factor (inner limit levels)) f.leaves (.error (.tooDeep limit)) rest := by
  obtain ⟨n, ls, hl, hne, ho, hp⟩ := f.operandTooDeep limit levels rest hd hn hr
  rw [hl]
  exact reads_factor n ho hne hp

/-- The operand behind the minuses of a factor is as deep as the factor. -/
theorem Factor.operandTooDeep (limit : Nat) : ∀ (f : Factor) (levels : Nat) (rest : List Lexeme)
    {q : Quantity}, f.denote = .ok q → levels < f.nesting → NotBefore operandMarks rest →
    ∃ n ls, f.leaves = List.replicate n (.mark .minus) ++ ls ∧ ls ≠ [] ∧
      (∀ l ∈ ls.head?, l ≠ .mark .minus) ∧
      Reads (Grammar.operand (inner limit levels)) ls (.error (.tooDeep limit)) rest
  | .negated f, levels, rest, q, hd, hn, hr => by
    obtain ⟨r, hf, -⟩ := bind_eq_ok.mp hd
    obtain ⟨n, ls, hl, hne, ho, hp⟩ := f.operandTooDeep limit levels rest hf hn hr
    exact ⟨n + 1, ls, by rw [Factor.leaves, hl]; rfl, hne, ho, hp⟩
  | .plain o, levels, rest, q, hd, hn, hr => by
    obtain ⟨l, tail, he, ho⟩ := o.leaves_eq
    refine ⟨0, o.leaves, rfl, by rw [he]; nofun, ?_, o.tooDeep limit levels rest hd hn hr⟩
    rw [he]
    rintro _ ⟨⟩ rfl
    exact ho

theorem Operand.tooDeep (limit : Nat) : ∀ (o : Operand) (levels : Nat) (rest : List Lexeme)
    {q : Quantity}, o.denote = .ok q → levels < o.nesting → NotBefore operandMarks rest →
    Reads (Grammar.operand (inner limit levels)) o.leaves (.error (.tooDeep limit)) rest
  | .mk primary methods, levels, rest, q, hd, hn, hr => by
    obtain ⟨receiver, hp, hm⟩ := bind_eq_ok.mp hd
    by_cases h : primary.nesting ≤ levels
    · have hmethods : levels < methods.nesting := by rw [Operand.nesting] at hn; omega
      have hprimary := primary.reads limit levels (methods.leaves ++ rest) h
      rw [hp] at hprimary
      exact reads_chain_ok hprimary (methods.tooDeep limit levels rest hm hmethods hr)
    · exact reads_chain_error (primary.tooDeep limit levels _ hp (by omega))

theorem Methods.tooDeep (limit : Nat) : ∀ (ms : Methods) (levels : Nat) (rest : List Lexeme)
    {receiver q : Quantity}, ms.denote receiver = .ok q → levels < ms.nesting →
    NotBefore operandMarks rest →
    Continues (Grammar.nextMethod (inner limit levels)) receiver ms.leaves
      (.error (.tooDeep limit)) rest
  | .nil, _, _, _, _, _, hn, _ => absurd hn (Nat.not_lt_zero _)
  | .cons name arguments ms, levels, rest, receiver, q, hd, hn, hr => by
    obtain ⟨values, ha, hd⟩ := bind_eq_ok.mp hd
    obtain ⟨next, hcall, hms⟩ := bind_eq_ok.mp hd
    have hdot : Grammar.nextMethod (inner limit levels) receiver (.mark .dot) =
      some ((Phrase.name .methodName).andThen fun name =>
        (Grammar.arguments (inner limit levels)).check (Call.method receiver name)) := rfl
    by_cases h : arguments.nesting ≤ levels
    · have hrest : levels < ms.nesting := by rw [Methods.nesting] at hn; omega
      have hargs := arguments.reads limit levels (ms.leaves ++ rest) h
      rw [ha] at hargs
      have hp := reads_andThen (reads_name name .methodName _) fun n _ =>
        reads_check (f := Call.method receiver n) hargs
      rw [show (Except.ok name >>= fun n => Except.ok values >>= Call.method receiver n) = .ok next
        from hcall] at hp
      exact continues_cons_ok hdot hp (ms.tooDeep limit levels rest hms hrest hr)
    · have hargs := arguments.tooDeep limit levels (ms.leaves ++ rest) ha (by omega)
      exact continues_cons_error hdot (reads_andThen (reads_name name .methodName _) fun n _ =>
        reads_check (f := Call.method receiver n) hargs)

theorem Primary.tooDeep (limit : Nat) : ∀ (p : Primary) (levels : Nat) (rest : List Lexeme)
    {q : Quantity}, p.denote = .ok q → levels < p.nesting →
    Reads (Grammar.primary (inner limit levels)) p.leaves (.error (.tooDeep limit)) rest
  | .group _, 0, _, _, _, _ => reads_group rfl
  | .group e, levels + 1, _, _, hd, hn =>
    reads_group (e.tooDeep limit levels _ hd (Nat.lt_of_succ_lt_succ hn)
      (notBefore_mark (by decide)))
  | .function name arguments, levels, rest, q, hd, hn => by
    obtain ⟨values, ha, -⟩ := bind_eq_ok.mp hd
    exact reads_function (arguments.tooDeep limit levels rest ha hn) arguments.head_leaves
  | .member holder name arguments, levels, rest, q, hd, hn => by
    obtain ⟨values, ha, -⟩ := bind_eq_ok.mp hd
    exact reads_member (arguments.tooDeep limit levels rest ha hn)

theorem Arguments.tooDeep (limit : Nat) : ∀ (as : Arguments) (levels : Nat) (rest : List Lexeme)
    {values : List BinaryPoint.Argument}, as.denote = .ok values → levels < as.nesting →
    Reads (Grammar.arguments (inner limit levels)) as.leaves (.error (.tooDeep limit)) rest
  | .nil, _, _, _, _, hn => absurd hn (Nat.not_lt_zero _)
  | .cons argument as, levels, rest, values, hd, hn => by
    obtain ⟨value, ha, hd⟩ := bind_eq_ok.mp hd
    obtain ⟨more, has, -⟩ := bind_eq_ok.mp hd
    by_cases h : argument.nesting ≤ levels
    · have hrest : levels < as.nesting := by rw [Arguments.nesting] at hn; omega
      have hp := argument.reads limit levels _ h (as.notBefore rest)
      rw [ha] at hp
      exact reads_arguments_more_error hp (as.moreTooDeep limit levels rest has hrest [value])
    · have hp := argument.tooDeep limit levels _ ha (by omega) (as.notBefore rest)
      exact reads_arguments_first_error hp

theorem Arguments.moreTooDeep (limit : Nat) : ∀ (as : Arguments) (levels : Nat)
    (rest : List Lexeme) {values : List BinaryPoint.Argument}, as.denote = .ok values →
    levels < as.nesting → ∀ collected : List BinaryPoint.Argument,
    Continues (Grammar.nextArgument (inner limit levels)) collected as.moreLeaves
      (.error (.tooDeep limit)) (.mark .closeParen :: rest)
  | .nil, _, _, _, _, hn, _ => absurd hn (Nat.not_lt_zero _)
  | .cons argument as, levels, rest, values, hd, hn, collected => by
    obtain ⟨value, ha, hd⟩ := bind_eq_ok.mp hd
    obtain ⟨more, has, -⟩ := bind_eq_ok.mp hd
    have hcomma : Grammar.nextArgument (inner limit levels) collected (.mark .comma) =
      some ((Grammar.argument (inner limit levels)).map (· :: collected)) := rfl
    by_cases h : argument.nesting ≤ levels
    · have hrest : levels < as.nesting := by rw [Arguments.nesting] at hn; omega
      have hp := argument.reads limit levels _ h (as.notBefore rest)
      rw [ha] at hp
      exact continues_cons_ok hcomma (reads_check hp)
        (as.moreTooDeep limit levels rest has hrest (value :: collected))
    · have hp := argument.tooDeep limit levels _ ha (by omega) (as.notBefore rest)
      exact continues_cons_error hcomma (reads_check hp)

theorem Argument.tooDeep (limit : Nat) : ∀ (a : Argument) (levels : Nat) (rest : List Lexeme)
    {value : BinaryPoint.Argument}, a.denote = .ok value → levels < a.nesting →
    NotBefore expressionMarks rest →
    Reads (Grammar.argument (inner limit levels)) a.leaves (.error (.tooDeep limit)) rest
  | .text _, _, _, _, _, hn, _ => absurd hn (Nat.not_lt_zero _)
  | .value e, 0, rest, _, _, _, _ =>
    reads_value (show Reads (inner limit 0) e.leaves (.error (.tooDeep limit)) rest from rfl)
  | .value e, levels + 1, _, _, hd, hn, hr => by
    obtain ⟨q, he, -⟩ := bind_eq_ok.mp hd
    exact reads_value (e.tooDeep limit levels _ he (Nat.lt_of_succ_lt_succ hn) hr)

end

end BinaryPoint.Derivation

namespace BinaryPoint

open BinaryPoint.Derivation

theorem evaluateLexemes_tooDeep {e : Expression} {q : Quantity} (hd : e.denote = .ok q)
    (hn : depthLimit < e.nesting) : evaluateLexemes e.leaves = .error (.tooDeep depthLimit) := by
  obtain ⟨l, tail, hl, _⟩ := e.leaves_eq
  have hr := e.tooDeep depthLimit depthLimit [] hd hn (notBefore_nil _)
  rw [Reads, List.append_nil] at hr
  rw [hl] at hr ⊢
  simp only [evaluateLexemes, hr]
  rfl

/-- The limit alone decides on a text that spells a derivation with a value. -/
theorem evaluatePrepared_of_denote {e : Expression} {q : Quantity} (hd : e.denote = .ok q)
    {text : Text} (hs : Lexeme.Spells e.leaves text) : evaluatePrepared text =
      if e.nesting ≤ depthLimit then .ok q else .error (.tooDeep depthLimit) := by
  by_cases h : e.nesting ≤ depthLimit
  · rw [if_pos h, evaluatePrepared_of_spells h hs, hd]
  · rw [if_neg h, evaluatePrepared, Lexeme.ofText_eq_ok.mpr hs]
    exact evaluateLexemes_tooDeep hd (by omega)

end BinaryPoint
