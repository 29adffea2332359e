import BinaryPoint.Expression.Lexeme

/-!
# Phrases

A phrase reads the front of a list of lexemes and gives a value and the lexemes after it.
It always consumes something when it succeeds, which its type records, so that phrases
can be repeated.

* `Phrase.andThen`, `Phrase.check`: one phrase after another, and a test of its value.
* `Phrase.byHead`, `Phrase.ifMark`, `Phrase.orMark`: choices by the next lexeme.
* `Phrase.chain`: a first phrase and any number of continuations.
* `Phrase.afterMarks`: a phrase behind a run of one mark, with the length of the run.
-/
namespace BinaryPoint

/-- A reader of the value at the front of lexemes, with the lexemes after it. It consumes at least
one lexeme when it succeeds. -/
structure Phrase (α : Type) where
  read : List Lexeme → Except EvalError (α × List Lexeme)
  length_lt : ∀ {s : List Lexeme} {a : α} {rest : List Lexeme},
    read s = .ok (a, rest) → rest.length < s.length

namespace Phrase

variable {α β : Type}

/-- The error of finding the front of the lexemes where `expected` should stand. -/
def refusal (expected : Expected) : List Lexeme → EvalError
  | [] => .unexpectedEnd expected
  | lexeme :: _ => .unexpectedLexeme lexeme.text expected

def fail (e : EvalError) : Phrase α where
  read _ := .error e
  length_lt h := nomatch h

/-- Consumes the first lexeme and goes on with the phrase that it asks for. -/
def byHead (expected : Expected) (next : Lexeme → Option (Phrase α)) : Phrase α where
  read
    | [] => .error (refusal expected [])
    | lexeme :: rest =>
      match next lexeme with
      | some phrase => phrase.read rest
      | none => .error (refusal expected (lexeme :: rest))
  length_lt {s a rest} h := by
    cases s with
    | nil => contradiction
    | cons lexeme tail =>
      dsimp only at h
      split at h
      · have := Phrase.length_lt _ h
        rw [List.length_cons]
        omega
      · contradiction

/-- Reads one lexeme for its value. -/
def one (expected : Expected) (value : Lexeme → Option α) : Phrase α where
  read
    | [] => .error (refusal expected [])
    | lexeme :: rest =>
      match value lexeme with
      | some a => .ok (a, rest)
      | none => .error (refusal expected (lexeme :: rest))
  length_lt {s a rest} h := by
    cases s with
    | nil => contradiction
    | cons lexeme tail =>
      dsimp only at h
      split at h
      · cases h
        exact Nat.lt_succ_self _
      · contradiction

def mark (m : Mark) (expected : Expected) : Phrase Unit :=
  one expected fun lexeme => if lexeme = .mark m then some () else none

def name (expected : Expected) : Phrase Text :=
  one expected fun
    | .name text => some text
    | _ => none

/-- Reads one phrase and then the one that its value asks for. -/
def andThen (first : Phrase α) (second : α → Phrase β) : Phrase β where
  read s :=
    match first.read s with
    | .ok (a, rest) => (second a).read rest
    | .error e => .error e
  length_lt {s b rest} h := by
    split at h
    · next h₁ => exact Nat.lt_trans ((second _).length_lt h) (first.length_lt h₁)
    · contradiction

/-- Reads a phrase and turns its value into another, if it has one. -/
def check (phrase : Phrase α) (f : α → Except EvalError β) : Phrase β where
  read s :=
    match phrase.read s with
    | .ok (a, rest) =>
      match f a with
      | .ok b => .ok (b, rest)
      | .error e => .error e
    | .error e => .error e
  length_lt {s b rest} h := by
    split at h
    · next h₁ =>
      split at h
      · cases h
        exact phrase.length_lt h₁
      · contradiction
    · contradiction

/-- Reads a phrase and turns its value into another. -/
def map (f : α → β) (phrase : Phrase α) : Phrase β := phrase.check fun a => .ok (f a)

/-- Consumes the mark and goes on with `yes` if the mark comes next, and reads `no` otherwise. -/
def ifMark (m : Mark) (yes no : Phrase α) : Phrase α where
  read s :=
    match s with
    | .mark m' :: rest => if m' = m then yes.read rest else no.read s
    | _ => no.read s
  length_lt {s a rest} h := by
    split at h
    · split at h
      · have := yes.length_lt h
        rw [List.length_cons]
        omega
      · exact no.length_lt h
    · exact no.length_lt h

/-- Consumes the mark for the value `a` if the mark comes next, and reads `no` otherwise. -/
def orMark (m : Mark) (a : α) (no : Phrase α) : Phrase α where
  read s :=
    match s with
    | .mark m' :: rest => if m' = m then .ok (a, rest) else no.read s
    | _ => no.read s
  length_lt {s b rest} h := by
    split at h
    · split at h
      · cases h
        exact Nat.lt_succ_self _
      · exact no.length_lt h
    · exact no.length_lt h

/-- Goes on from the value `a` for as long as the next lexeme asks for a continuation. -/
def continueFrom (next : α → Lexeme → Option (Phrase α)) (a : α) :
    List Lexeme → Except EvalError (α × List Lexeme)
  | [] => .ok (a, [])
  | lexeme :: rest =>
    match next a lexeme with
    | none => .ok (a, lexeme :: rest)
    | some phrase =>
      match _h : phrase.read rest with
      | .ok (b, rest') => continueFrom next b rest'
      | .error e => .error e
termination_by s => s.length
decreasing_by
  have := phrase.length_lt ‹_›
  rw [List.length_cons]
  omega

theorem length_le_of_continueFrom (next : α → Lexeme → Option (Phrase α)) (a : α)
    (s : List Lexeme) {b : α} {rest : List Lexeme} (h : continueFrom next a s = .ok (b, rest)) :
    rest.length ≤ s.length := by
  fun_induction continueFrom next a s with
  | case1 => cases h; exact Nat.le_refl _
  | case2 => cases h; exact Nat.le_refl _
  | case3 a lexeme tail phrase _ c rest' h₁ ih =>
    have := phrase.length_lt h₁
    have := ih h
    rw [List.length_cons]
    omega
  | case4 => contradiction

/-- Reads a phrase and all its continuations. -/
def chain (first : Phrase α) (next : α → Lexeme → Option (Phrase α)) : Phrase α where
  read s :=
    match first.read s with
    | .ok (a, rest) => continueFrom next a rest
    | .error e => .error e
  length_lt {s b rest} h := by
    split at h
    · next h₁ =>
      exact Nat.lt_of_le_of_lt (length_le_of_continueFrom next _ _ h) (first.length_lt h₁)
    · contradiction

/-- Skips a run of the mark and reads the phrase that the length of the run asks for. -/
def afterMarks (m : Mark) (phrase : Nat → Phrase α) : Phrase α where
  read s :=
    (phrase (s.takeWhile (· = .mark m)).length).read (s.dropWhile (· = .mark m))
  length_lt h :=
    Nat.lt_of_lt_of_le (Phrase.length_lt _ h) (List.dropWhile_sublist _).length_le

end Phrase

end BinaryPoint
