import BinaryPoint.Expression.Evaluate

/-!
# Derivations

The trees of the grammar of prepared text, apart from any reader. There is one type for each
rule and one for each starred part of a rule:

    Expression := Term Terms          Terms   := (('+' | '-') Term)*
    Term       := Factor Factors      Factors := (('*' | '/') Factor)*
    Factor     := '-' Factor | Operand
    Operand    := Primary Methods     Methods := ('.' NAME Arguments)*
    Primary    := '(' Expression ')' | NAME Arguments | NAME '.' NAME Arguments
    Arguments  := '(' (Argument (',' Argument)*)? ')'
    Argument   := STRING | Expression

* `leaves`: the lexemes of a tree from left to right.
* `nesting`: how deep grouped expressions and arguments that are expressions are nested.
* `denote`: the value of a tree by recursion on it. Binary levels fold from the left, each
  minus negates once, and a call evaluates its receiver, then its arguments in order, then
  itself; the first error in that order is the error of the tree.
-/
namespace BinaryPoint.Derivation

/-- The operators between terms. -/
inductive Additive where
  | plus | minus
  deriving DecidableEq, Repr

/-- The operators between factors. -/
inductive Multiplicative where
  | star | slash
  deriving DecidableEq, Repr

def Additive.mark : Additive → Mark
  | .plus => .plus
  | .minus => .minus

def Additive.operation : Additive → Operation
  | .plus => .add
  | .minus => .subtract

def Multiplicative.mark : Multiplicative → Mark
  | .star => .star
  | .slash => .slash

def Multiplicative.operation : Multiplicative → Operation
  | .star => .multiply
  | .slash => .divide

mutual

inductive Expression where
  | mk (first : Term) (rest : Terms)

inductive Terms where
  | nil
  | cons (op : Additive) (term : Term) (rest : Terms)

inductive Term where
  | mk (first : Factor) (rest : Factors)

inductive Factors where
  | nil
  | cons (op : Multiplicative) (factor : Factor) (rest : Factors)

inductive Factor where
  | negated (factor : Factor)
  | plain (operand : Operand)

inductive Operand where
  | mk (primary : Primary) (methods : Methods)

inductive Methods where
  | nil
  | cons (name : Text) (arguments : Arguments) (rest : Methods)

inductive Primary where
  | group (expression : Expression)
  | function (name : Text) (arguments : Arguments)
  | member (holder name : Text) (arguments : Arguments)

inductive Arguments where
  | nil
  | cons (argument : Argument) (rest : Arguments)

inductive Argument where
  | text (t : Text)
  | value (expression : Expression)

end

/-! ## Leaves -/

mutual

def Expression.leaves : Expression → List Lexeme
  | .mk first rest => first.leaves ++ rest.leaves

def Terms.leaves : Terms → List Lexeme
  | .nil => []
  | .cons op term rest => .mark op.mark :: (term.leaves ++ rest.leaves)

def Term.leaves : Term → List Lexeme
  | .mk first rest => first.leaves ++ rest.leaves

def Factors.leaves : Factors → List Lexeme
  | .nil => []
  | .cons op factor rest => .mark op.mark :: (factor.leaves ++ rest.leaves)

def Factor.leaves : Factor → List Lexeme
  | .negated factor => .mark .minus :: factor.leaves
  | .plain operand => operand.leaves

def Operand.leaves : Operand → List Lexeme
  | .mk primary methods => primary.leaves ++ methods.leaves

def Methods.leaves : Methods → List Lexeme
  | .nil => []
  | .cons name arguments rest =>
    .mark .dot :: .name name :: (arguments.leaves ++ rest.leaves)

def Primary.leaves : Primary → List Lexeme
  | .group expression => .mark .openParen :: (expression.leaves ++ [.mark .closeParen])
  | .function name arguments => .name name :: arguments.leaves
  | .member holder name arguments => .name holder :: .mark .dot :: .name name :: arguments.leaves

def Arguments.leaves : Arguments → List Lexeme
  | .nil => [.mark .openParen, .mark .closeParen]
  | .cons argument rest =>
    .mark .openParen :: (argument.leaves ++ (rest.moreLeaves ++ [.mark .closeParen]))

/-- The leaves of arguments that follow another argument. -/
def Arguments.moreLeaves : Arguments → List Lexeme
  | .nil => []
  | .cons argument rest => .mark .comma :: (argument.leaves ++ rest.moreLeaves)

def Argument.leaves : Argument → List Lexeme
  | .text t => [.quoted t]
  | .value expression => expression.leaves

end

/-! ## Nesting -/

mutual

def Expression.nesting : Expression → Nat
  | .mk first rest => max first.nesting rest.nesting

def Terms.nesting : Terms → Nat
  | .nil => 0
  | .cons _ term rest => max term.nesting rest.nesting

def Term.nesting : Term → Nat
  | .mk first rest => max first.nesting rest.nesting

def Factors.nesting : Factors → Nat
  | .nil => 0
  | .cons _ factor rest => max factor.nesting rest.nesting

def Factor.nesting : Factor → Nat
  | .negated factor => factor.nesting
  | .plain operand => operand.nesting

def Operand.nesting : Operand → Nat
  | .mk primary methods => max primary.nesting methods.nesting

def Methods.nesting : Methods → Nat
  | .nil => 0
  | .cons _ arguments rest => max arguments.nesting rest.nesting

/-- A grouped expression is one level further in. -/
def Primary.nesting : Primary → Nat
  | .group expression => expression.nesting + 1
  | .function _ arguments => arguments.nesting
  | .member _ _ arguments => arguments.nesting

def Arguments.nesting : Arguments → Nat
  | .nil => 0
  | .cons argument rest => max argument.nesting rest.nesting

/-- An expression among the arguments is one level further in, and a string is not. -/
def Argument.nesting : Argument → Nat
  | .text _ => 0
  | .value expression => expression.nesting + 1

end

/-! ## Values -/

mutual

def Expression.denote : Expression → Except EvalError Quantity
  | .mk first rest => do rest.denote (← first.denote)

/-- The value of terms after the value `left` of those before them. -/
def Terms.denote : Terms → (left : Quantity) → Except EvalError Quantity
  | .nil, left => .ok left
  | .cons op term rest, left => do
    let right ← term.denote
    rest.denote (← Quantity.apply op.operation left right)

def Term.denote : Term → Except EvalError Quantity
  | .mk first rest => do rest.denote (← first.denote)

/-- The value of factors after the value `left` of those before them. -/
def Factors.denote : Factors → (left : Quantity) → Except EvalError Quantity
  | .nil, left => .ok left
  | .cons op factor rest, left => do
    let right ← factor.denote
    rest.denote (← Quantity.apply op.operation left right)

def Factor.denote : Factor → Except EvalError Quantity
  | .negated factor => do (← factor.denote).negate
  | .plain operand => operand.denote

def Operand.denote : Operand → Except EvalError Quantity
  | .mk primary methods => do methods.denote (← primary.denote)

/-- The value of method calls on a receiver, one after the other. -/
def Methods.denote : Methods → (receiver : Quantity) → Except EvalError Quantity
  | .nil, receiver => .ok receiver
  | .cons name arguments rest, receiver => do
    let values ← arguments.denote
    rest.denote (← Call.method receiver name values)

def Primary.denote : Primary → Except EvalError Quantity
  | .group expression => expression.denote
  | .function name arguments => do Call.function name (← arguments.denote)
  | .member holder name arguments => do Call.member holder name (← arguments.denote)

def Arguments.denote : Arguments → Except EvalError (List BinaryPoint.Argument)
  | .nil => .ok []
  | .cons argument rest => do
    let value ← argument.denote
    let values ← rest.denote
    return value :: values

def Argument.denote : Argument → Except EvalError BinaryPoint.Argument
  | .text t => .ok (.text t)
  | .value expression => do return .quantity (← expression.denote)

end

/-! ## Expressions of one factor -/

/-- A factor as an expression. -/
def Expression.single (factor : Factor) : Expression := .mk (.mk factor .nil) .nil

@[simp] theorem Expression.leaves_single (factor : Factor) :
    (Expression.single factor).leaves = factor.leaves := by
  simp [Expression.single, Expression.leaves, Term.leaves, Terms.leaves, Factors.leaves]

@[simp] theorem Expression.nesting_single (factor : Factor) :
    (Expression.single factor).nesting = factor.nesting := by
  simp [Expression.single, Expression.nesting, Term.nesting, Terms.nesting, Factors.nesting]

@[simp] theorem Expression.denote_single (factor : Factor) :
    (Expression.single factor).denote = factor.denote := by
  rw [Expression.single, Expression.denote, Term.denote]
  cases factor.denote <;> rfl

/-! ## What leaves begin with, and what may follow them -/

/-- The lexemes do not begin with one of the marks. -/
def NotBefore (marks : List Mark) (rest : List Lexeme) : Prop :=
  ∀ m ∈ marks, rest.head? ≠ some (.mark m)

/-- The marks that continue an operand, a term and an expression. -/
def operandMarks : List Mark := [.dot]
def termMarks : List Mark := .star :: .slash :: operandMarks
def expressionMarks : List Mark := .plus :: .minus :: termMarks

theorem notBefore_nil (marks : List Mark) : NotBefore marks [] := fun _ _ h => nomatch h

theorem notBefore_mark {marks : List Mark} {m : Mark} {rest : List Lexeme} (h : m ∉ marks) :
    NotBefore marks (.mark m :: rest) := by
  rintro m' hm ⟨⟩; exact h hm

theorem NotBefore.mono {marks marks' : List Mark} {rest : List Lexeme} (h : NotBefore marks rest)
    (hs : marks' ⊆ marks) : NotBefore marks' rest := fun m hm => h m (hs hm)

theorem operandMarks_subset : operandMarks ⊆ termMarks := by decide
theorem termMarks_subset : termMarks ⊆ expressionMarks := by decide

theorem Terms.notBefore (terms : Terms) {rest : List Lexeme} (h : NotBefore expressionMarks rest) :
    NotBefore termMarks (terms.leaves ++ rest) := by
  cases terms with
  | nil => exact h.mono termMarks_subset
  | cons op => cases op <;> exact notBefore_mark (by decide)

theorem Factors.notBefore (factors : Factors) {rest : List Lexeme} (h : NotBefore termMarks rest) :
    NotBefore operandMarks (factors.leaves ++ rest) := by
  cases factors with
  | nil => exact h.mono operandMarks_subset
  | cons op => cases op <;> exact notBefore_mark (by decide)

theorem Arguments.notBefore (arguments : Arguments) (rest : List Lexeme) :
    NotBefore expressionMarks (arguments.moreLeaves ++ .mark .closeParen :: rest) := by
  cases arguments <;> exact notBefore_mark (by decide)

/-- A lexeme that an operand can begin with. -/
def OpensOperand : Lexeme → Prop
  | .mark .openParen | .name _ => True
  | _ => False

/-- A lexeme that an expression can begin with. -/
def Opens (l : Lexeme) : Prop := l = .mark .minus ∨ OpensOperand l

theorem Operand.leaves_eq : ∀ o : Operand, ∃ l tail, o.leaves = l :: tail ∧ OpensOperand l
  | .mk (.group _) _ => ⟨_, _, rfl, trivial⟩
  | .mk (.function _ _) _ => ⟨_, _, rfl, trivial⟩
  | .mk (.member _ _ _) _ => ⟨_, _, rfl, trivial⟩

theorem Factor.leaves_eq : ∀ f : Factor, ∃ l tail, f.leaves = l :: tail ∧ Opens l
  | .negated _ => ⟨_, _, rfl, .inl rfl⟩
  | .plain o => by
    obtain ⟨l, tail, e, h⟩ := o.leaves_eq
    exact ⟨l, tail, e, .inr h⟩

theorem Expression.leaves_eq : ∀ e : Expression, ∃ l tail, e.leaves = l :: tail ∧ Opens l
  | .mk (.mk first factors) terms => by
    obtain ⟨l, tail, e, h⟩ := first.leaves_eq
    refine ⟨l, tail ++ factors.leaves ++ terms.leaves, ?_, h⟩
    simp only [Expression.leaves, Term.leaves, e, List.cons_append]

theorem Argument.head_ne_closeParen (a : Argument) (rest : List Lexeme) :
    (a.leaves ++ rest).head? ≠ some (.mark .closeParen) := by
  cases a with
  | text t => nofun
  | value e =>
    obtain ⟨l, tail, he, ho⟩ := e.leaves_eq
    rw [Argument.leaves, he]
    rintro ⟨⟩
    rcases ho with h | h
    · cases h
    · exact h

theorem Argument.head_ne_comma (a : Argument) (rest : List Lexeme) :
    (a.leaves ++ rest).head? ≠ some (.mark .comma) := by
  cases a with
  | text t => nofun
  | value e =>
    obtain ⟨l, tail, he, ho⟩ := e.leaves_eq
    rw [Argument.leaves, he]
    rintro ⟨⟩
    rcases ho with h | h
    · cases h
    · exact h

end BinaryPoint.Derivation
