import BinaryPoint.Proofs.Expression.Groups

/-!
# Precedence and associativity of the operators

An expression that is a chain of parenthesised operands with operators between them has the
value of a fold in two levels: runs of `*`, `x` and `/` are combined from the left, and the
terms that they make are combined from the left by `+` and `-`, each as soon as it has a value.
The first error in that order is the error of the chain. Nothing is assumed of the arithmetic.

* `twoLevel`: the fold, over the values of the operands.
* `exists_chain`: a derivation that folds that way, and what spells it.
* `prepare_chain`: the prepared text of a chain.
* `evaluate_chain`: the value of a chain.
-/
namespace BinaryPoint

open BinaryPoint.Derivation
open Lexeme (Spells)

/-- The operators as they are written between operands. -/
inductive Operator where
  | plus | minus | star | cross | slash
  deriving DecidableEq, Repr

namespace Operator

def char : Operator → Char
  | .plus => '+'
  | .minus => '-'
  | .star => '*'
  | .cross => 'x'
  | .slash => '/'

/-- The operator stands between factors and not between terms. -/
def isProduct : Operator → Bool
  | .plus | .minus => false
  | .star | .cross | .slash => true

def operation : Operator → Operation
  | .plus => .add
  | .minus => .subtract
  | .star | .cross => .multiply
  | .slash => .divide

def mark : Operator → Mark
  | .plus => .plus
  | .minus => .minus
  | .star | .cross => .star
  | .slash => .slash

end Operator

/-! ## The fold -/

/-- Factors combined from the left. -/
def product (first : Quantity) (more : List (Operator × Quantity)) : Except EvalError Quantity :=
  more.foldlM (fun left p => Quantity.apply p.1.operation left p.2) first

/-- Terms combined from the left after the value `left` of those before them. A term is an
operand and the maximal run of factors behind it, and has its value before it is combined. -/
def sums (left : Quantity) : List (Operator × Quantity) → Except EvalError Quantity
  | [] => .ok left
  | (op, first) :: rest => do
    let right ← product first (rest.takeWhile (·.1.isProduct))
    sums (← Quantity.apply op.operation left right) (rest.dropWhile (·.1.isProduct))
termination_by more => more.length
decreasing_by
  have := (List.dropWhile_sublist (l := rest) (·.1.isProduct)).length_le
  rw [List.length_cons]; omega

/-- The value of a chain of operands and operators. -/
def twoLevel (first : Quantity) (more : List (Operator × Quantity)) : Except EvalError Quantity := do
  sums (← product first (more.takeWhile (·.1.isProduct))) (more.dropWhile (·.1.isProduct))

/-! ## Its derivation -/

/-- An operator and the derivation of the operand behind it, which denotes a value. -/
structure Joined where
  op : Operator
  expression : Expression
  value : Quantity
  nesting_lt : expression.nesting < depthLimit
  denote_eq : expression.denote = .ok value

def Joined.leaves (j : Joined) : List Lexeme :=
  .mark j.op.mark :: (Factor.ofGroup j.expression).leaves

def Joined.valued (j : Joined) : Operator × Quantity := (j.op, j.value)

theorem Joined.nesting_le (j : Joined) : (Factor.ofGroup j.expression).nesting ≤ depthLimit := by
  rw [Factor.nesting_ofGroup]; exact j.nesting_lt

theorem Joined.exists_multiplicative {j : Joined} (h : j.op.isProduct = true) :
    ∃ m : Multiplicative, m.mark = j.op.mark ∧ m.operation = j.op.operation := by
  cases ho : j.op <;> rw [ho] at h
  · cases h
  · cases h
  · exact ⟨.star, rfl, rfl⟩
  · exact ⟨.star, rfl, rfl⟩
  · exact ⟨.slash, rfl, rfl⟩

theorem Joined.exists_additive {j : Joined} (h : j.op.isProduct = false) :
    ∃ a : Additive, a.mark = j.op.mark ∧ a.operation = j.op.operation := by
  cases ho : j.op <;> rw [ho] at h
  · exact ⟨.plus, rfl, rfl⟩
  · exact ⟨.minus, rfl, rfl⟩
  · cases h
  · cases h
  · cases h

theorem exists_factors : ∀ js : List Joined, (∀ j ∈ js, j.op.isProduct = true) →
    ∃ fs : Factors, fs.leaves = js.flatMap Joined.leaves ∧ fs.nesting ≤ depthLimit ∧
      ∀ left, fs.denote left = product left (js.map Joined.valued)
  | [], _ => ⟨.nil, rfl, Nat.zero_le _, fun _ => rfl⟩
  | j :: js, h => by
    obtain ⟨fs, hl, hn, hd⟩ := exists_factors js fun i hi => h i (List.mem_cons_of_mem _ hi)
    obtain ⟨m, hm, ho⟩ := Joined.exists_multiplicative (h j List.mem_cons_self)
    refine ⟨.cons m (.ofGroup j.expression) fs, ?_, Nat.max_le.mpr ⟨j.nesting_le, hn⟩, fun left => ?_⟩
    · rw [Factors.leaves, hm, hl, List.flatMap_cons]; rfl
    · rw [Factors.denote, Factor.denote_ofGroup j.denote_eq, ho, List.map_cons, product,
        List.foldlM_cons]
      exact bind_congr fun q => hd q

/-- A term made of an operand and the factors behind it. -/
theorem exists_term {e : Expression} {q : Quantity} (hn : e.nesting < depthLimit)
    (hd : e.denote = .ok q) {js : List Joined} (h : ∀ j ∈ js, j.op.isProduct = true) :
    ∃ t : Term, t.leaves = (Factor.ofGroup e).leaves ++ js.flatMap Joined.leaves ∧
      t.nesting ≤ depthLimit ∧ t.denote = product q (js.map Joined.valued) := by
  obtain ⟨fs, hl, hf, hv⟩ := exists_factors js h
  refine ⟨.mk (.ofGroup e) fs, by rw [Term.leaves, hl], Nat.max_le.mpr ⟨?_, hf⟩, ?_⟩
  · rw [Factor.nesting_ofGroup]; exact hn
  · rw [Term.denote, Factor.denote_ofGroup hd]; exact hv q

theorem map_takeWhile_valued (js : List Joined) :
    (js.takeWhile (·.op.isProduct)).map Joined.valued =
      (js.map Joined.valued).takeWhile (·.1.isProduct) := by
  rw [List.takeWhile_map]; rfl

theorem map_dropWhile_valued (js : List Joined) :
    (js.dropWhile (·.op.isProduct)).map Joined.valued =
      (js.map Joined.valued).dropWhile (·.1.isProduct) := by
  rw [List.dropWhile_map]; rfl

theorem isProduct_of_mem_takeWhile (js : List Joined) :
    ∀ j ∈ js.takeWhile (·.op.isProduct), j.op.isProduct = true := fun _ hj =>
  List.mem_takeWhile_imp (p := fun j : Joined => j.op.isProduct) hj

theorem head?_dropWhile_isProduct (js : List Joined) :
    ∀ j ∈ (js.dropWhile (·.op.isProduct)).head?, j.op.isProduct = false := by
  intro j hj
  have := List.head?_dropWhile_not (fun j : Joined => j.op.isProduct) js
  rw [Option.mem_def.mp hj] at this
  simpa using this

theorem exists_terms (js : List Joined) (h : ∀ j ∈ js.head?, j.op.isProduct = false) :
    ∃ ts : Terms, ts.leaves = js.flatMap Joined.leaves ∧ ts.nesting ≤ depthLimit ∧
      ∀ left, ts.denote left = sums left (js.map Joined.valued) := by
  match js with
  | [] => exact ⟨.nil, rfl, Nat.zero_le _, fun left => by rw [List.map_nil, sums]; rfl⟩
  | j :: js =>
    obtain ⟨t, htl, htn, htd⟩ := exists_term j.nesting_lt j.denote_eq
      (isProduct_of_mem_takeWhile js)
    obtain ⟨ts, hl, hn, hd⟩ := exists_terms (js.dropWhile (·.op.isProduct))
      (head?_dropWhile_isProduct js)
    obtain ⟨a, ha, ho⟩ := Joined.exists_additive (h j rfl)
    refine ⟨.cons a t ts, ?_, Nat.max_le.mpr ⟨htn, hn⟩, fun left => ?_⟩
    · rw [Terms.leaves, ha, htl, hl, List.append_assoc, ← List.flatMap_append,
        List.takeWhile_append_dropWhile]
      rfl
    · rw [Terms.denote, htd, ho, List.map_cons, Joined.valued, sums, map_takeWhile_valued]
      refine bind_congr fun right => bind_congr fun q => ?_
      rw [hd, map_dropWhile_valued]
termination_by js.length
decreasing_by
  have := (List.dropWhile_sublist (l := js) (·.op.isProduct)).length_le
  rw [List.length_cons]; omega

/-- The derivation of a whole chain. -/
theorem exists_chain {e : Expression} {q : Quantity} (hn : e.nesting < depthLimit)
    (hd : e.denote = .ok q) (js : List Joined) :
    ∃ c : Expression, c.leaves = (Factor.ofGroup e).leaves ++ js.flatMap Joined.leaves ∧
      c.nesting ≤ depthLimit ∧ c.denote = twoLevel q (js.map Joined.valued) := by
  obtain ⟨t, htl, htn, htd⟩ := exists_term hn hd (isProduct_of_mem_takeWhile js)
  obtain ⟨ts, hl, hm, hv⟩ := exists_terms _ (head?_dropWhile_isProduct js)
  refine ⟨.mk t ts, ?_, Nat.max_le.mpr ⟨htn, hm⟩, ?_⟩
  · rw [Expression.leaves, htl, hl, List.append_assoc, ← List.flatMap_append,
      List.takeWhile_append_dropWhile]
  · rw [Expression.denote, htd, twoLevel, map_takeWhile_valued]
    refine bind_congr fun left => ?_
    rw [hv, map_dropWhile_valued]

/-! ## Its text -/

/-- The pieces of a chain of operands in parentheses. -/
def chainPieces (first : Valued) (more : List (Operator × Valued)) : List Text :=
  ['('] :: first.text :: [')'] ::
    more.flatMap fun p => [[p.1.char], ['('], p.2.text, [')']]

/-- The operators and operands behind the first, without blanks. -/
def chainTail (more : List (Operator × Valued)) : Text :=
  more.flatMap fun p => p.1.char :: '(' :: (Text.stripped p.2.text ++ [')'])

/-- The prepared text of that. -/
def preparedTail (more : List (Operator × Valued)) : Text :=
  more.flatMap fun p => p.1.mark.char :: '(' :: (prepare p.2.text ++ [')'])

theorem Operator.stripped_char (op : Operator) : Text.stripped [op.char] = [op.char] := by
  cases op <;> decide

theorem flatMap_stripped_chainPieces (first : Valued) (more : List (Operator × Valued)) :
    (chainPieces first more).flatMap Text.stripped =
      '(' :: (Text.stripped first.text ++ ')' :: chainTail more) := by
  have ht : (more.flatMap fun p => [[p.1.char], ['('], p.2.text, [')']]).flatMap Text.stripped =
      chainTail more := by
    rw [List.flatMap_assoc, chainTail]
    refine List.flatMap_congr fun p _ => ?_
    simp only [List.flatMap_cons, List.flatMap_nil, p.1.stripped_char, List.append_nil]
    rfl
  rw [chainPieces, List.flatMap_cons, List.flatMap_cons, List.flatMap_cons, ht]
  rfl

theorem standsAlone_char (op : Operator) (next : Option Char) :
    Token.standsAlone 0 op.char next = some .operator := by
  cases op <;> rfl

theorem piece_char (op : Operator) : Prepared.piece ⟨.operator, [op.char]⟩ = [op.mark.char] := by
  cases op <;> rfl

/-- Each operator stands behind a closing parenthesis, so a minus is never a sign here. -/
theorem preparedBehind_chainTail : ∀ more : List (Operator × Valued),
    preparedBehind (some Token.closeParen) (chainTail more) = preparedTail more
  | [] => rfl
  | (op, a) :: more => by
    have ht : chainTail ((op, a) :: more) =
        op.char :: '(' :: (Text.stripped a.text ++ ')' :: chainTail more) := by
      simp [chainTail]
    rw [ht, prepare_alone (standsAlone_char op _), piece_char, prepare_group a.alone,
      preparedBehind_chainTail more]
    simp [preparedTail]

theorem prepare_chain {first : Valued} {more : List (Operator × Valued)} {text : Text}
    (h : Text.Spaced (chainPieces first more) text) :
    prepare text = '(' :: (prepare first.text ++ ')' :: preparedTail more) := by
  rw [prepare_eq, h.stripped_eq, flatMap_stripped_chainPieces, prepare_group first.alone,
    preparedBehind_chainTail]

theorem exists_joined : ∀ more : List (Operator × Valued), ∃ js : List Joined,
    js.map Joined.valued = more.map (fun p => (p.1, p.2.value)) ∧
      Spells (js.flatMap Joined.leaves) (preparedTail more)
  | [] => ⟨[], rfl, .nil⟩
  | (op, a) :: more => by
    obtain ⟨js, hv, hs⟩ := exists_joined more
    obtain ⟨e, hn, he, hd⟩ := a.exists_expression
    refine ⟨⟨op, e, a.value, hn, hd⟩ :: js, by rw [List.map_cons, hv]; rfl, ?_⟩
    have ht : preparedTail ((op, a) :: more) =
        op.mark.char :: '(' :: (prepare a.text ++ ')' :: preparedTail more) := by
      simp [preparedTail]
    rw [ht]
    exact .mark op.mark (spells_group he hs)

/-- **Precedence.** However blanks are set, a chain of parenthesised operands has the value of
the fold in two levels, or its first error. -/
theorem evaluate_chain (first : Valued) (more : List (Operator × Valued)) (text : Text)
    (h : Text.Spaced (chainPieces first more) text) :
    evaluate text = twoLevel first.value (more.map fun p => (p.1, p.2.value)) := by
  obtain ⟨e, hn, hs, hd⟩ := first.exists_expression
  obtain ⟨js, hv, hjs⟩ := exists_joined more
  obtain ⟨c, hl, hc, hcd⟩ := exists_chain hn hd js
  rw [evaluate, prepare_chain h, ← hv, ← hcd]
  refine evaluatePrepared_of_spells hc ?_
  rw [hl]
  exact spells_group hs hjs

/-- The product comes first, and its second factor keeps its own sign. -/
theorem evaluate_chain_minus_cross :
    let two : Valued := ⟨['2'], .scalar (.ofWhole 2), by decide +kernel, by decide +kernel⟩
    let three : Valued := ⟨['3'], .scalar (.ofWhole 3), by decide +kernel, by decide +kernel⟩
    let less : Valued := ⟨['-', '1'], .scalar (.ofWhole (-1)), by decide +kernel, by decide +kernel⟩
    let text : Text := "(2) - (3)x(-1)".toList
    Text.Spaced (chainPieces two [(.minus, three), (.cross, less)]) text ∧
      evaluate text = .ok (.scalar (.ofWhole 5)) := by
  intro two three less text
  have h : Text.Spaced (chainPieces two [(.minus, three), (.cross, less)]) text :=
    .piece ['('] (.piece ['2'] (.piece [')'] (.blank rfl (.piece ['-'] (.blank rfl (.piece ['(']
      (.piece ['3'] (.piece [')'] (.piece ['x'] (.piece ['('] (.piece ['-', '1'] (.piece [')']
        .nil))))))))))))
  exact ⟨h, (evaluate_chain two [(.minus, three), (.cross, less)] text h).trans (by decide +kernel)⟩

end BinaryPoint
