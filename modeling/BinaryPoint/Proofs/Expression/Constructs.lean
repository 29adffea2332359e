import BinaryPoint.Proofs.Expression.Calls
import BinaryPoint.Proofs.Expression.Derivation

/-!
# Where strings stand

In the leaves of a derivation that has a value, each string is the single argument of a
constructor, since no other call takes text.

* `Constructs`: lexemes in which strings stand only there.
* `Expression.constructs`: the leaves of an expression that has a value are such lexemes.
-/
namespace BinaryPoint

/-- Strings stand only in calls of constructors, as the single argument. -/
inductive Constructs : List Lexeme → Prop where
  | nil : Constructs []
  | mark (m : Mark) {rest : List Lexeme} (h : Constructs rest) : Constructs (.mark m :: rest)
  | name {name : Text} {rest : List Lexeme} (hn : ¬IsConstructor name) (h : Constructs rest) :
    Constructs (.name name :: rest)
  | call {name t : Text} {rest : List Lexeme} (hn : IsConstructor name) (h : Constructs rest) :
    Constructs (.name name :: .mark .openParen :: .quoted t :: .mark .closeParen :: rest)

namespace Constructs

theorem append {first rest : List Lexeme} (h : Constructs first) (hr : Constructs rest) :
    Constructs (first ++ rest) := by
  induction h with
  | nil => exact hr
  | mark m _ ih => exact .mark m ih
  | name hn _ ih => exact .name hn ih
  | call hn _ ih => exact .call hn ih

theorem of_mark {m : Mark} {rest : List Lexeme} (h : Constructs (.mark m :: rest)) :
    Constructs rest := by
  cases h; assumption

theorem of_name {name : Text} (hn : ¬IsConstructor name) {rest : List Lexeme}
    (h : Constructs (.name name :: rest)) : Constructs rest := by
  cases h with
  | name _ h => exact h
  | call hc _ => exact absurd hc hn

theorem of_call {name : Text} (hn : IsConstructor name) {lexemes : List Lexeme}
    (h : Constructs (.name name :: lexemes)) : ∃ t rest,
      lexemes = .mark .openParen :: .quoted t :: .mark .closeParen :: rest ∧ Constructs rest := by
  cases h with
  | name hc _ => exact absurd hn hc
  | call _ h => exact ⟨_, _, rfl, h⟩

end Constructs

/-! ## Leaves of derivations that have a value -/

namespace Derivation

theorem Arguments.eq_of_text {as : Arguments} {t : Text} (h : as.denote = .ok [.text t]) :
    as = .cons (.text t) .nil := by
  cases as with
  | nil => cases h
  | cons a as =>
    rw [Arguments.denote] at h
    obtain ⟨v, ha, h⟩ := bind_eq_ok.mp h
    obtain ⟨vs, has, h⟩ := bind_eq_ok.mp h
    cases h
    have hn : as = .nil := by
      cases as with
      | nil => rfl
      | cons b bs =>
        rw [Arguments.denote] at has
        obtain ⟨_, _, has⟩ := bind_eq_ok.mp has
        obtain ⟨_, _, has⟩ := bind_eq_ok.mp has
        cases has
    cases a with
    | text t' => cases ha; rw [hn]
    | value e =>
      rw [Argument.denote] at ha
      obtain ⟨_, _, ha⟩ := bind_eq_ok.mp ha
      cases ha

mutual

theorem Expression.constructs : ∀ (e : Expression) {q : Quantity}, e.denote = .ok q →
    Constructs e.leaves
  | .mk first rest, q, h => by
    rw [Expression.denote] at h
    obtain ⟨left, hf, hr⟩ := bind_eq_ok.mp h
    exact (first.constructs hf).append (rest.constructs left hr)

theorem Terms.constructs : ∀ (ts : Terms) (left : Quantity) {q : Quantity},
    ts.denote left = .ok q → Constructs ts.leaves
  | .nil, _, _, _ => .nil
  | .cons op term rest, left, q, h => by
    rw [Terms.denote] at h
    obtain ⟨right, ht, h⟩ := bind_eq_ok.mp h
    obtain ⟨next, _, hr⟩ := bind_eq_ok.mp h
    exact .mark _ ((term.constructs ht).append (rest.constructs next hr))

theorem Term.constructs : ∀ (t : Term) {q : Quantity}, t.denote = .ok q → Constructs t.leaves
  | .mk first rest, q, h => by
    rw [Term.denote] at h
    obtain ⟨left, hf, hr⟩ := bind_eq_ok.mp h
    exact (first.constructs hf).append (rest.constructs left hr)

theorem Factors.constructs : ∀ (fs : Factors) (left : Quantity) {q : Quantity},
    fs.denote left = .ok q → Constructs fs.leaves
  | .nil, _, _, _ => .nil
  | .cons op factor rest, left, q, h => by
    rw [Factors.denote] at h
    obtain ⟨right, hf, h⟩ := bind_eq_ok.mp h
    obtain ⟨next, _, hr⟩ := bind_eq_ok.mp h
    exact .mark _ ((factor.constructs hf).append (rest.constructs next hr))

theorem Factor.constructs : ∀ (f : Factor) {q : Quantity}, f.denote = .ok q →
    Constructs f.leaves
  | .negated factor, q, h => by
    rw [Factor.denote] at h
    obtain ⟨_, hf, _⟩ := bind_eq_ok.mp h
    exact .mark _ (factor.constructs hf)
  | .plain operand, q, h => by
    rw [Factor.denote] at h
    exact operand.constructs h

theorem Operand.constructs : ∀ (o : Operand) {q : Quantity}, o.denote = .ok q →
    Constructs o.leaves
  | .mk primary methods, q, h => by
    rw [Operand.denote] at h
    obtain ⟨receiver, hp, hm⟩ := bind_eq_ok.mp h
    exact (primary.constructs hp).append (methods.constructs receiver hm)

theorem Methods.constructs : ∀ (ms : Methods) (receiver : Quantity) {q : Quantity},
    ms.denote receiver = .ok q → Constructs ms.leaves
  | .nil, _, _, _ => .nil
  | .cons name as rest, receiver, q, h => by
    rw [Methods.denote] at h
    obtain ⟨values, ha, h⟩ := bind_eq_ok.mp h
    obtain ⟨next, hc, hr⟩ := bind_eq_ok.mp h
    obtain ⟨hn, hv⟩ := Call.method_eq_ok hc
    exact .mark _ (.name hn ((as.constructs ha hv).append (rest.constructs next hr)))

theorem Primary.constructs : ∀ (p : Primary) {q : Quantity}, p.denote = .ok q →
    Constructs p.leaves
  | .group e, q, h => by
    rw [Primary.denote] at h
    exact .mark _ ((e.constructs h).append (.mark _ .nil))
  | .function name as, q, h => by
    rw [Primary.denote] at h
    obtain ⟨values, ha, hc⟩ := bind_eq_ok.mp h
    rcases Call.function_eq_ok hc with ⟨hn, t, rfl⟩ | ⟨hn, hv⟩
    · rw [Arguments.eq_of_text ha]; exact .call hn .nil
    · exact .name hn (as.constructs ha hv)
  | .member holder name as, q, h => by
    rw [Primary.denote] at h
    obtain ⟨values, ha, hc⟩ := bind_eq_ok.mp h
    obtain ⟨hh, hn, hv⟩ := Call.member_eq_ok hc
    exact .name hh (.mark _ (.name hn (as.constructs ha hv)))

theorem Arguments.constructs : ∀ (as : Arguments) {values : List BinaryPoint.Argument},
    as.denote = .ok values → AllQuantities values → Constructs as.leaves
  | .nil, _, _, _ => .mark _ (.mark _ .nil)
  | .cons a as, values, h, hv => by
    rw [Arguments.denote] at h
    obtain ⟨v, ha, h⟩ := bind_eq_ok.mp h
    obtain ⟨vs, has, h⟩ := bind_eq_ok.mp h
    cases h
    exact .mark _ ((a.constructs ha (hv _ List.mem_cons_self)).append
      ((as.moreConstructs has fun b hb => hv b (List.mem_cons_of_mem _ hb)).append
        (.mark _ .nil)))

theorem Arguments.moreConstructs : ∀ (as : Arguments) {values : List BinaryPoint.Argument},
    as.denote = .ok values → AllQuantities values → Constructs as.moreLeaves
  | .nil, _, _, _ => .nil
  | .cons a as, values, h, hv => by
    rw [Arguments.denote] at h
    obtain ⟨v, ha, h⟩ := bind_eq_ok.mp h
    obtain ⟨vs, has, h⟩ := bind_eq_ok.mp h
    cases h
    exact .mark _ ((a.constructs ha (hv _ List.mem_cons_self)).append
      (as.moreConstructs has fun b hb => hv b (List.mem_cons_of_mem _ hb)))

theorem Argument.constructs : ∀ (a : Argument) {v : BinaryPoint.Argument}, a.denote = .ok v →
    (∃ q, v = .quantity q) → Constructs a.leaves
  | .text t, v, h, ⟨q, hq⟩ => by rw [hq] at h; cases h
  | .value e, v, h, _ => by
    rw [Argument.denote] at h
    obtain ⟨q, he, _⟩ := bind_eq_ok.mp h
    exact e.constructs he

end

end Derivation

end BinaryPoint
