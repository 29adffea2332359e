import Mathlib.Data.List.Basic
import BinaryPoint.Proofs.Expression.Constructs
import BinaryPoint.Proofs.Expression.Spelling

/-!
# Nesting in prepared text

How deep an expression is nested can be read off its prepared text, without a grammar: it is the
greatest number of parentheses that are open at once, not counting those of an empty list of
arguments and those of a generated call, in front of its string. `maxOpen` is that number, along
characters as well as along lexemes, since to either only the parentheses and quotes matter.

* `Text.openAtOnce`: the number for a text.
* `Derivation.Expression.nests`: a derivation that has a value opens as many as it is nested.
* `Delimiter.maxOpen_of_spells`: the number is the same for a text and for its lexemes.
-/
namespace BinaryPoint

open Lexeme (Spells)

/-! ## Parentheses that are open at once -/

/-- What matters of a character, or of a lexeme, when open parentheses are counted. -/
inductive Delimiter where
  | opening | closing | quote | other
  deriving DecidableEq, Repr

namespace Delimiter

def ofChar : Char → Delimiter
  | '(' => .opening
  | ')' => .closing
  | '"' => .quote
  | _ => .other

def ofLexeme : Lexeme → Delimiter
  | .mark .openParen => .opening
  | .mark .closeParen => .closing
  | .quoted _ => .quote
  | _ => .other

/-- An opening parenthesis counts unless it is closed or a quote follows at once. -/
def counts : (next : Option Delimiter) → Bool
  | some .closing | some .quote => false
  | _ => true

/-- The open parentheses behind one more delimiter, the innermost first; for each there is whether
it counts. -/
def opened (stack : List Bool) (delimiter : Delimiter) (next : Option Delimiter) : List Bool :=
  match delimiter with
  | .opening => counts next :: stack
  | .closing => stack.tail
  | _ => stack

/-- The greatest number of parentheses that count and are open at once. -/
def maxOpen (stack : List Bool) : List Delimiter → Nat
  | [] => stack.count true
  | delimiter :: rest => max (stack.count true) (maxOpen (opened stack delimiter rest.head?) rest)

theorem count_le_maxOpen (stack : List Bool) (delimiters : List Delimiter) :
    stack.count true ≤ maxOpen stack delimiters := by
  cases delimiters with
  | nil => exact Nat.le_refl _
  | cons delimiter rest => exact Nat.le_max_left _ _

theorem maxOpen_quote (stack : List Bool) (rest : List Delimiter) :
    maxOpen stack (.quote :: rest) = maxOpen stack rest :=
  Nat.max_eq_right (count_le_maxOpen stack rest)

theorem maxOpen_other (stack : List Bool) (rest : List Delimiter) :
    maxOpen stack (.other :: rest) = maxOpen stack rest :=
  Nat.max_eq_right (count_le_maxOpen stack rest)

theorem maxOpen_opening (stack : List Bool) (rest : List Delimiter) :
    maxOpen stack (.opening :: rest) = maxOpen (counts rest.head? :: stack) rest := by
  have h := count_le_maxOpen (counts rest.head? :: stack) rest
  rw [List.count_cons] at h
  show max _ _ = _
  exact Nat.max_eq_right (Nat.le_trans (Nat.le_add_right _ _) h)

theorem maxOpen_closing (b : Bool) (stack : List Bool) (rest : List Delimiter) :
    maxOpen (b :: stack) (.closing :: rest) =
      max ((b :: stack).count true) (maxOpen stack rest) := rfl

theorem maxOpen_skip {delimiters : List Delimiter} (h : ∀ d ∈ delimiters, d = .other)
    (stack : List Bool) (rest : List Delimiter) :
    maxOpen stack (delimiters ++ rest) = maxOpen stack rest := by
  induction delimiters with
  | nil => rfl
  | cons delimiter delimiters ih =>
    rw [h delimiter List.mem_cons_self, List.cons_append, maxOpen_other,
      ih fun p hp => h p (List.mem_cons_of_mem _ hp)]

end Delimiter

open Delimiter (maxOpen)

/-- The greatest number of opening parentheses in the text that are open at once, without those
that are followed by a closing one or by a quote. -/
def Text.openAtOnce (text : Text) : Nat := maxOpen [] (text.map Delimiter.ofChar)

/-! ## Lexemes that close what they open -/

/-- Wherever the lexemes stand, they close what they open, and at most `n` parentheses that count
are open at once in between. -/
def Nests (lexemes : List Lexeme) (n : Nat) : Prop := ∀ (stack : List Bool) (rest : List Delimiter),
  maxOpen stack (lexemes.map Delimiter.ofLexeme ++ rest) =
    max (stack.count true + n) (maxOpen stack rest)

theorem nests_nil : Nests [] 0 := fun stack rest =>
  (Nat.max_eq_right (Delimiter.count_le_maxOpen stack rest)).symm

theorem nests_noArguments : Nests [.mark .openParen, .mark .closeParen] 0 := by
  intro stack rest
  show maxOpen stack (.opening :: .closing :: rest) = _
  rw [Delimiter.maxOpen_opening]
  rfl

theorem nests_string (t : Text) : Nests [.mark .openParen, .quoted t, .mark .closeParen] 0 := by
  intro stack rest
  show maxOpen stack (.opening :: .quote :: .closing :: rest) = _
  rw [Delimiter.maxOpen_opening, Delimiter.maxOpen_quote]
  rfl

namespace Nests

variable {lexemes lexemes' : List Lexeme} {m n : Nat}

theorem append (h : Nests lexemes m) (h' : Nests lexemes' n) :
    Nests (lexemes ++ lexemes') (max m n) := by
  intro stack rest
  rw [List.map_append, List.append_assoc, h, h']
  omega

theorem name (h : Nests lexemes n) (text : Text) : Nests (.name text :: lexemes) n := by
  intro stack rest
  show maxOpen stack (.other :: (lexemes.map Delimiter.ofLexeme ++ rest)) = _
  rw [Delimiter.maxOpen_other]
  exact h stack rest

theorem mark (h : Nests lexemes n) {p : Mark} (hp : Delimiter.ofLexeme (.mark p) = .other) :
    Nests (.mark p :: lexemes) n := by
  intro stack rest
  rw [List.map_cons, hp, List.cons_append, Delimiter.maxOpen_other]
  exact h stack rest

/-- Parentheses that count are one level more. -/
theorem parentheses (h : Nests lexemes n) (hne : lexemes ≠ [])
    (hc : Delimiter.counts (lexemes.map Delimiter.ofLexeme).head? = true) :
    Nests (.mark .openParen :: (lexemes ++ [.mark .closeParen])) (n + 1) := by
  intro stack rest
  have hall : (Lexeme.mark .openParen :: (lexemes ++ [.mark .closeParen])).map
      Delimiter.ofLexeme ++ rest =
      .opening :: (lexemes.map Delimiter.ofLexeme ++ .closing :: rest) := by
    simp [Delimiter.ofLexeme]
  have hhead : (lexemes.map Delimiter.ofLexeme ++ .closing :: rest).head? =
      (lexemes.map Delimiter.ofLexeme).head? :=
    List.head?_append_of_ne_nil _ (by simpa using hne)
  rw [hall, Delimiter.maxOpen_opening, hhead, hc, h, Delimiter.maxOpen_closing,
    List.count_cons_self]
  omega

end Nests

/-! ## Derivations -/

namespace Derivation

theorem Expression.counts_head (e : Expression) :
    Delimiter.counts (e.leaves.map Delimiter.ofLexeme).head? = true := by
  obtain ⟨l, tail, he, ho⟩ := e.leaves_eq
  rw [he]
  rcases ho with rfl | ho
  · rfl
  · cases l with
    | name t => rfl
    | quoted t => exact ho.elim
    | mark m => cases m <;> first | rfl | exact ho.elim

theorem Expression.leaves_ne_nil (e : Expression) : e.leaves ≠ [] := by
  obtain ⟨l, tail, he, -⟩ := e.leaves_eq
  rw [he]
  exact List.cons_ne_nil l tail

mutual

/-- A derivation that has a value opens as many parentheses that count as it is nested. -/
theorem Expression.nests : ∀ (e : Expression) {q : Quantity}, e.denote = .ok q →
    Nests e.leaves e.nesting
  | .mk first rest, q, h => by
    obtain ⟨left, hf, hr⟩ := bind_eq_ok.mp h
    exact (first.nests hf).append (rest.nests hr)

theorem Terms.nests : ∀ (ts : Terms) {left q : Quantity}, ts.denote left = .ok q →
    Nests ts.leaves ts.nesting
  | .nil, _, _, _ => nests_nil
  | .cons op term rest, left, q, h => by
    obtain ⟨right, ht, h⟩ := bind_eq_ok.mp h
    obtain ⟨next, -, hr⟩ := bind_eq_ok.mp h
    exact ((term.nests ht).append (rest.nests hr)).mark (by cases op <;> rfl)

theorem Term.nests : ∀ (t : Term) {q : Quantity}, t.denote = .ok q → Nests t.leaves t.nesting
  | .mk first rest, q, h => by
    obtain ⟨left, hf, hr⟩ := bind_eq_ok.mp h
    exact (first.nests hf).append (rest.nests hr)

theorem Factors.nests : ∀ (fs : Factors) {left q : Quantity}, fs.denote left = .ok q →
    Nests fs.leaves fs.nesting
  | .nil, _, _, _ => nests_nil
  | .cons op factor rest, left, q, h => by
    obtain ⟨right, hf, h⟩ := bind_eq_ok.mp h
    obtain ⟨next, -, hr⟩ := bind_eq_ok.mp h
    exact ((factor.nests hf).append (rest.nests hr)).mark (by cases op <;> rfl)

theorem Factor.nests : ∀ (f : Factor) {q : Quantity}, f.denote = .ok q →
    Nests f.leaves f.nesting
  | .negated factor, q, h => by
    obtain ⟨_, hf, -⟩ := bind_eq_ok.mp h
    exact (factor.nests hf).mark rfl
  | .plain operand, q, h => operand.nests h

theorem Operand.nests : ∀ (o : Operand) {q : Quantity}, o.denote = .ok q →
    Nests o.leaves o.nesting
  | .mk primary methods, q, h => by
    obtain ⟨receiver, hp, hm⟩ := bind_eq_ok.mp h
    exact (primary.nests hp).append (methods.nests hm)

theorem Methods.nests : ∀ (ms : Methods) {receiver q : Quantity}, ms.denote receiver = .ok q →
    Nests ms.leaves ms.nesting
  | .nil, _, _, _ => nests_nil
  | .cons name as rest, receiver, q, h => by
    obtain ⟨values, ha, h⟩ := bind_eq_ok.mp h
    obtain ⟨next, hc, hr⟩ := bind_eq_ok.mp h
    have hv := (Call.method_eq_ok hc).2
    exact (((as.nests ha hv).append (rest.nests hr)).name name).mark rfl

theorem Primary.nests : ∀ (p : Primary) {q : Quantity}, p.denote = .ok q →
    Nests p.leaves p.nesting
  | .group e, q, h => (e.nests h).parentheses e.leaves_ne_nil e.counts_head
  | .function name as, q, h => by
    obtain ⟨values, ha, hc⟩ := bind_eq_ok.mp h
    rcases Call.function_eq_ok hc with ⟨-, t, rfl⟩ | ⟨-, hv⟩
    · rw [Arguments.eq_of_text ha]
      exact (nests_string t).name name
    · exact (as.nests ha hv).name name
  | .member holder name as, q, h => by
    obtain ⟨values, ha, hc⟩ := bind_eq_ok.mp h
    have hv := (Call.member_eq_ok hc).2.2
    exact (((as.nests ha hv).name name).mark rfl).name holder

theorem Arguments.nests : ∀ (as : Arguments) {values : List BinaryPoint.Argument},
    as.denote = .ok values → AllQuantities values → Nests as.leaves as.nesting
  | .nil, _, _, _ => nests_noArguments
  | .cons a as, values, h, hv => by
    obtain ⟨v, ha, h⟩ := bind_eq_ok.mp h
    obtain ⟨vs, has, h⟩ := bind_eq_ok.mp h
    cases h
    obtain ⟨hpos, hcounts, hne, hfirst⟩ := a.nests ha (hv _ List.mem_cons_self)
    have hmore := as.moreNests has fun b hb => hv b (List.mem_cons_of_mem _ hb)
    have hhead : ((a.leaves ++ as.moreLeaves).map Delimiter.ofLexeme).head? =
        (a.leaves.map Delimiter.ofLexeme).head? := by
      rw [List.map_append, List.head?_append_of_ne_nil _ (by simpa using hne)]
    have hall := (hfirst.append hmore).parentheses (by simp [hne]) (by rw [hhead]; exact hcounts)
    rw [show max (a.nesting - 1) (as.nesting - 1) + 1 = max a.nesting as.nesting by omega,
      List.append_assoc] at hall
    exact hall

/-- Behind the first argument, the parentheses of the list are already open. -/
theorem Arguments.moreNests : ∀ (as : Arguments) {values : List BinaryPoint.Argument},
    as.denote = .ok values → AllQuantities values → Nests as.moreLeaves (as.nesting - 1)
  | .nil, _, _, _ => nests_nil
  | .cons a as, values, h, hv => by
    obtain ⟨v, ha, h⟩ := bind_eq_ok.mp h
    obtain ⟨vs, has, h⟩ := bind_eq_ok.mp h
    cases h
    obtain ⟨-, -, -, hfirst⟩ := a.nests ha (hv _ List.mem_cons_self)
    have hmore := as.moreNests has fun b hb => hv b (List.mem_cons_of_mem _ hb)
    have hall := (hfirst.append hmore).mark (p := .comma) rfl
    rw [show max (a.nesting - 1) (as.nesting - 1) = max a.nesting as.nesting - 1 by omega] at hall
    exact hall

theorem Argument.nests : ∀ (a : Argument) {v : BinaryPoint.Argument}, a.denote = .ok v →
    (∃ q, v = .quantity q) → 0 < a.nesting ∧
      Delimiter.counts (a.leaves.map Delimiter.ofLexeme).head? = true ∧ a.leaves ≠ [] ∧
        Nests a.leaves (a.nesting - 1)
  | .text t, v, h, ⟨q, hq⟩ => by rw [hq] at h; cases h
  | .value e, v, h, _ => by
    obtain ⟨q, he, -⟩ := bind_eq_ok.mp h
    exact ⟨Nat.succ_pos _, e.counts_head, e.leaves_ne_nil, e.nests he⟩

end

theorem Expression.maxOpen_leaves {e : Expression} {q : Quantity} (h : e.denote = .ok q) :
    maxOpen [] (e.leaves.map Delimiter.ofLexeme) = e.nesting := by
  have hn := e.nests h [] []
  rw [List.append_nil] at hn
  rw [hn]
  simp [maxOpen]

end Derivation

/-! ## Texts -/

namespace Delimiter

theorem ofChar_eq_other {c : Char} (h : c ∉ ['(', ')', '"']) : ofChar c = .other := by
  unfold ofChar
  split <;> simp_all

theorem ofChar_of_isNameRest {c : Char} (h : Lexeme.isNameRest c = true) : ofChar c = .other := by
  refine ofChar_eq_other fun hm => ?_
  simp only [List.mem_cons, List.not_mem_nil, or_false] at hm
  rcases hm with rfl | rfl | rfl <;> revert h <;> decide

theorem ofChar_char (m : Mark) : ofChar m.char = ofLexeme (.mark m) := by cases m <;> rfl

/-- Without blanks a text begins as the lexemes do that it spells. -/
theorem head_of_spells {lexemes : List Lexeme} {text : Text} (h : Spells lexemes text)
    (hb : ∀ c ∈ text, Text.isBlank c = false) :
    (text.map ofChar).head? = (lexemes.map ofLexeme).head? := by
  cases h with
  | nil => rfl
  | blank hc _ =>
    have := hb _ List.mem_cons_self
    rw [hc] at this
    cases this
  | mark m _ => exact congrArg some (ofChar_char m)
  | quoted _ _ => rfl
  | name hc _ _ _ =>
    exact congrArg some (ofChar_of_isNameRest (Lexeme.isNameRest_of_isNameStart hc))

/-- Characters and lexemes open the same parentheses, where strings hold none. -/
theorem maxOpen_of_spells {lexemes : List Lexeme} {text : Text} (h : Spells lexemes text)
    (hb : ∀ c ∈ text, Text.isBlank c = false)
    (hs : ∀ s, .quoted s ∈ lexemes → '(' ∉ s ∧ ')' ∉ s) (stack : List Bool) :
    maxOpen stack (text.map ofChar) = maxOpen stack (lexemes.map ofLexeme) := by
  induction h generalizing stack with
  | nil => rfl
  | blank hc _ _ =>
    have := hb _ List.mem_cons_self
    rw [hc] at this
    cases this
  | @mark m lexemes text hrest ih =>
    have hb' : ∀ c ∈ text, Text.isBlank c = false := fun c hc => hb c (List.mem_cons_of_mem _ hc)
    have ih := ih hb' fun s hm => hs s (List.mem_cons_of_mem _ hm)
    rw [List.map_cons, List.map_cons, ofChar_char, maxOpen, maxOpen, head_of_spells hrest hb', ih]
  | @quoted inner lexemes text hq hrest ih =>
    have hin := hs inner List.mem_cons_self
    have hother : ∀ delimiter ∈ inner.map ofChar, delimiter = .other := by
      intro delimiter hp
      obtain ⟨c, hc, rfl⟩ := List.mem_map.mp hp
      refine ofChar_eq_other fun hm => ?_
      simp only [List.mem_cons, List.not_mem_nil, or_false] at hm
      rcases hm with rfl | rfl | rfl
      · exact hin.1 hc
      · exact hin.2 hc
      · exact hq hc
    have hall : ('"' :: (inner ++ '"' :: text)).map ofChar =
        .quote :: (inner.map ofChar ++ .quote :: text.map ofChar) := by
      simp [ofChar]
    rw [hall, maxOpen_quote, maxOpen_skip hother, maxOpen_quote,
      ih (fun c hc => hb c (by simp [hc])) fun s hm => hs s (List.mem_cons_of_mem _ hm)]
    exact (maxOpen_quote _ _).symm
  | @name c more lexemes text hc hm _ hrest ih =>
    have hother : ∀ delimiter ∈ (c :: more).map ofChar, delimiter = .other := by
      intro delimiter hp
      obtain ⟨d, hd, rfl⟩ := List.mem_map.mp hp
      refine ofChar_of_isNameRest ?_
      rcases List.mem_cons.mp hd with rfl | hd
      · exact Lexeme.isNameRest_of_isNameStart hc
      · exact hm d hd
    rw [← List.cons_append, List.map_append, maxOpen_skip hother,
      ih (fun c hc => hb c (by simp [hc])) fun s hm => hs s (List.mem_cons_of_mem _ hm)]
    exact (maxOpen_other _ _).symm

end Delimiter

end BinaryPoint
