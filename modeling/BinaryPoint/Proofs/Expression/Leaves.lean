import BinaryPoint.Proofs.Expression.Calls
import BinaryPoint.Proofs.Expression.Derivation

/-!
# Ends and commas of derivations

A derivation ends with a closing parenthesis, that of a group or of a call. It closes the
parentheses it opens, and each of its commas is within some of them. So the commas behind the
opening parenthesis of a call, up to the one that closes it and outside all others, are one fewer
than its arguments.

* `Derivation.Expression.getLast?_leaves`: the last leaf.
* `outerCommas`, `HasCommas`: the commas that no parentheses hold, wherever lexemes stand.
* `Derivation.Expression.hasCommas`, `Derivation.Arguments.moreCommas`: the commas of derivations.
-/
namespace BinaryPoint

/-! ## The last leaf -/

namespace Derivation

theorem getLast?_append_leaves {s t : List Lexeme} (hs : s.getLast? = some (.mark .closeParen))
    (ht : ∀ l ∈ t.getLast?, l = .mark .closeParen) :
    (s ++ t).getLast? = some (.mark .closeParen) := by
  rw [List.getLast?_append]
  cases h : t.getLast? with
  | none => exact hs
  | some l => rw [ht l h]; rfl

theorem Arguments.getLast?_leaves (as : Arguments) : as.leaves.getLast? = some (.mark .closeParen) := by
  cases as with
  | nil => rfl
  | cons a as =>
    rw [Arguments.leaves, ← List.append_assoc, List.getLast?_cons, List.getLast?_concat]
    rfl

theorem Primary.getLast?_leaves (p : Primary) : p.leaves.getLast? = some (.mark .closeParen) := by
  cases p with
  | group e => rw [Primary.leaves, List.getLast?_cons, List.getLast?_concat]; rfl
  | function name as => rw [Primary.leaves, List.getLast?_cons, as.getLast?_leaves]; rfl
  | member holder name as =>
    rw [Primary.leaves, List.getLast?_cons, List.getLast?_cons, List.getLast?_cons, as.getLast?_leaves]
    rfl

theorem Methods.getLast?_leaves : ∀ (ms : Methods), ∀ l ∈ ms.leaves.getLast?, l = .mark .closeParen
  | .nil => nofun
  | .cons name as ms => fun l hl => by
    rw [Methods.leaves, List.getLast?_cons, List.getLast?_cons,
      getLast?_append_leaves as.getLast?_leaves ms.getLast?_leaves] at hl
    exact (Option.some.inj hl).symm

theorem Operand.getLast?_leaves : ∀ o : Operand, o.leaves.getLast? = some (.mark .closeParen)
  | .mk p ms => getLast?_append_leaves p.getLast?_leaves ms.getLast?_leaves

theorem Factor.getLast?_leaves : ∀ f : Factor, f.leaves.getLast? = some (.mark .closeParen)
  | .negated f => by rw [Factor.leaves, List.getLast?_cons, f.getLast?_leaves]; rfl
  | .plain o => o.getLast?_leaves

theorem Factors.getLast?_leaves : ∀ (fs : Factors), ∀ l ∈ fs.leaves.getLast?, l = .mark .closeParen
  | .nil => nofun
  | .cons op f fs => fun l hl => by
    rw [Factors.leaves, List.getLast?_cons,
      getLast?_append_leaves f.getLast?_leaves fs.getLast?_leaves] at hl
    exact (Option.some.inj hl).symm

theorem Term.getLast?_leaves : ∀ t : Term, t.leaves.getLast? = some (.mark .closeParen)
  | .mk f fs => getLast?_append_leaves f.getLast?_leaves fs.getLast?_leaves

theorem Terms.getLast?_leaves : ∀ (ts : Terms), ∀ l ∈ ts.leaves.getLast?, l = .mark .closeParen
  | .nil => nofun
  | .cons op t ts => fun l hl => by
    rw [Terms.leaves, List.getLast?_cons,
      getLast?_append_leaves t.getLast?_leaves ts.getLast?_leaves] at hl
    exact (Option.some.inj hl).symm

/-- Each rule ends with what its last part ends with, or with its own parenthesis. -/
theorem Expression.getLast?_leaves : ∀ e : Expression, e.leaves.getLast? = some (.mark .closeParen)
  | .mk t ts => getLast?_append_leaves t.getLast?_leaves ts.getLast?_leaves

end Derivation

/-! ## Commas outside parentheses -/

/-- The commas outside parentheses, up to one that closes what was open before. -/
def outerCommas : ℕ → List Lexeme → ℕ
  | _, [] => 0
  | depth, .mark .openParen :: rest => outerCommas (depth + 1) rest
  | 0, .mark .closeParen :: _ => 0
  | depth + 1, .mark .closeParen :: rest => outerCommas depth rest
  | 0, .mark .comma :: rest => outerCommas 0 rest + 1
  | depth, _ :: rest => outerCommas depth rest

/-- The lexemes close the parentheses they open, and `n` commas are outside of these. -/
structure HasCommas (lexemes : List Lexeme) (n : ℕ) : Prop where
  outer : ∀ rest, outerCommas 0 (lexemes ++ rest) = n + outerCommas 0 rest
  inner : ∀ depth rest, outerCommas (depth + 1) (lexemes ++ rest) = outerCommas (depth + 1) rest

namespace HasCommas

theorem nil : HasCommas [] 0 := ⟨fun _ => (Nat.zero_add _).symm, fun _ _ => rfl⟩

theorem comma : HasCommas [.mark .comma] 1 where
  outer rest := by
    rw [List.singleton_append, outerCommas]
    exact Nat.add_comm _ _
  inner _ _ := rfl

theorem quoted (text : Text) : HasCommas [.quoted text] 0 where
  outer _ := (Nat.zero_add _).symm
  inner _ _ := rfl

variable {lexemes lexemes' : List Lexeme} {m n : ℕ}

theorem append (h : HasCommas lexemes m) (h' : HasCommas lexemes' n) :
    HasCommas (lexemes ++ lexemes') (m + n) where
  outer rest := by rw [List.append_assoc, h.outer, h'.outer, Nat.add_assoc]
  inner depth rest := by rw [List.append_assoc, h.inner, h'.inner]

theorem name (h : HasCommas lexemes n) (text : Text) : HasCommas (.name text :: lexemes) n where
  outer := h.outer
  inner := h.inner

theorem mark (h : HasCommas lexemes n) {p : Mark} (hp : p ∉ [.openParen, .closeParen, .comma]) :
    HasCommas (.mark p :: lexemes) n := by
  cases p <;> first | exact ⟨h.outer, h.inner⟩ | exact absurd hp (by decide)

/-- Parentheses hide all commas within them. -/
theorem parentheses (h : HasCommas lexemes n) :
    HasCommas (.mark .openParen :: (lexemes ++ [.mark .closeParen])) 0 where
  outer rest := by
    rw [List.cons_append, List.append_assoc, outerCommas, h.inner]
    exact (Nat.zero_add _).symm
  inner depth rest := by
    rw [List.cons_append, List.append_assoc, outerCommas, h.inner]
    rfl

end HasCommas

namespace Derivation

/-- How many arguments there are. -/
def Arguments.length : Arguments → ℕ
  | .nil => 0
  | .cons _ rest => rest.length + 1

mutual

theorem Expression.hasCommas : ∀ e : Expression, HasCommas e.leaves 0
  | .mk first rest => first.hasCommas.append rest.hasCommas

theorem Terms.hasCommas : ∀ ts : Terms, HasCommas ts.leaves 0
  | .nil => .nil
  | .cons op term rest =>
    (term.hasCommas.append rest.hasCommas).mark (by cases op <;> decide)

theorem Term.hasCommas : ∀ t : Term, HasCommas t.leaves 0
  | .mk first rest => first.hasCommas.append rest.hasCommas

theorem Factors.hasCommas : ∀ fs : Factors, HasCommas fs.leaves 0
  | .nil => .nil
  | .cons op factor rest =>
    (factor.hasCommas.append rest.hasCommas).mark (by cases op <;> decide)

theorem Factor.hasCommas : ∀ f : Factor, HasCommas f.leaves 0
  | .negated factor => factor.hasCommas.mark (by decide)
  | .plain operand => operand.hasCommas

theorem Operand.hasCommas : ∀ o : Operand, HasCommas o.leaves 0
  | .mk primary methods => primary.hasCommas.append methods.hasCommas

theorem Methods.hasCommas : ∀ ms : Methods, HasCommas ms.leaves 0
  | .nil => .nil
  | .cons name as rest => ((as.hasCommas.append rest.hasCommas).name name).mark (by decide)

theorem Primary.hasCommas : ∀ p : Primary, HasCommas p.leaves 0
  | .group e => e.hasCommas.parentheses
  | .function name as => as.hasCommas.name name
  | .member holder name as => ((as.hasCommas.name name).mark (by decide)).name holder

theorem Arguments.hasCommas : ∀ as : Arguments, HasCommas as.leaves 0
  | .nil => HasCommas.nil.parentheses
  | .cons a as => by
    rw [Arguments.leaves, ← List.append_assoc]
    exact (a.hasCommas.append as.moreCommas).parentheses

/-- Each argument behind the first has its comma. -/
theorem Arguments.moreCommas : ∀ as : Arguments, HasCommas as.moreLeaves as.length
  | .nil => .nil
  | .cons a as => by
    have h := HasCommas.comma.append (a.hasCommas.append as.moreCommas)
    rwa [Nat.zero_add, Nat.add_comm] at h

theorem Argument.hasCommas : ∀ a : Argument, HasCommas a.leaves 0
  | .text t => .quoted t
  | .value e => e.hasCommas

end

/-- The commas behind the parenthesis that opens the arguments of a call. -/
theorem Arguments.outerCommas_leaves (as : Arguments) {lexemes tail : List Lexeme}
    (h : .mark .openParen :: lexemes = as.leaves ++ tail) :
    outerCommas 0 lexemes = as.length - 1 := by
  cases as with
  | nil =>
    obtain rfl : lexemes = .mark .closeParen :: tail := (List.cons.inj h).2
    rfl
  | cons a as =>
    have hl : lexemes = a.leaves ++ (as.moreLeaves ++ .mark .closeParen :: tail) := by
      simpa [Arguments.leaves] using h
    rw [hl, a.hasCommas.outer, as.moreCommas.outer, Nat.zero_add]
    rfl

theorem Arguments.length_denote : ∀ (as : Arguments) {values : List BinaryPoint.Argument},
    as.denote = .ok values → values.length = as.length
  | .nil, _, h => by cases h; rfl
  | .cons a as, values, h => by
    obtain ⟨v, -, h⟩ := bind_eq_ok.mp h
    obtain ⟨vs, has, h⟩ := bind_eq_ok.mp h
    cases h
    rw [List.length_cons, as.length_denote has, Arguments.length]

end Derivation

end BinaryPoint
