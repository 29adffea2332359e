import BinaryPoint.Proofs.Expression.Brackets
import BinaryPoint.Proofs.Expression.Groups
import BinaryPoint.Proofs.Expression.Leaves

/-!
# Calls of the area function

The area function has two names, by itself and within the name that holds functions on vectors.
Its call in front of prepared arguments takes their values in order.

* `AreaName.prepare_call`: the prepared text of a call.
* `AreaName.evaluatePrepared_call`: its value, from the values of its arguments.
* `AreaName.exists_arguments`: a call that has a value has arguments, up to its last parenthesis.
* `AreaName.outerCommas_of_evaluatePrepared`: there are three of them.
-/
namespace BinaryPoint

open BinaryPoint.Derivation
open Lexeme (Spells EndsName)

/-! ## Prepared arguments -/

/-- The prepared text of an argument with its derivation. -/
structure PreparedArgument where
  text : Text
  expression : Expression
  spelled : Spells expression.leaves text
  nested : expression.nesting < depthLimit

namespace PreparedArgument

/-- The value of the argument, or its error. -/
def value (a : PreparedArgument) : Except EvalError Quantity := a.expression.denote

/-- The derivation of arguments. -/
def derivation : List PreparedArgument → Arguments
  | [] => .nil
  | a :: rest => .cons (.value a.expression) (derivation rest)

theorem nesting_derivation : ∀ as : List PreparedArgument, (derivation as).nesting ≤ depthLimit
  | [] => Nat.zero_le _
  | a :: rest => Nat.max_le.mpr ⟨a.nested, nesting_derivation rest⟩

theorem denote_derivation : ∀ as : List PreparedArgument,
    (derivation as).denote = as.mapM fun a => .quantity <$> a.value
  | [] => rfl
  | a :: rest => by
    rw [derivation, Arguments.denote, denote_derivation rest, List.mapM_cons]
    rfl

theorem mapM_value {as : List PreparedArgument} {qs : List Quantity}
    (h : as.map value = qs.map .ok) :
    (as.mapM fun a => Argument.quantity <$> a.value) = .ok (qs.map .quantity) := by
  have hv : (as.mapM fun a => Argument.quantity <$> a.value) =
      (as.map value).mapM fun v => Argument.quantity <$> v := List.mapM_map.symm
  rw [hv, h, List.mapM_map]
  exact List.mapM_pure

/-- Arguments that follow another, each behind its comma. -/
theorem spells_more {lexemes : List Lexeme} {after : Text} (h : Spells lexemes after)
    (he : EndsName after) : ∀ as : List PreparedArgument,
    EndsName (as.flatMap (',' :: ·.text) ++ after) ∧
      Spells ((derivation as).moreLeaves ++ lexemes) (as.flatMap (',' :: ·.text) ++ after)
  | [] => ⟨he, h⟩
  | a :: rest => by
    obtain ⟨hn, hs⟩ := spells_more h he rest
    refine ⟨Lexeme.endsName_mark .comma _, ?_⟩
    rw [derivation, Arguments.moreLeaves, Argument.leaves, List.cons_append, List.append_assoc,
      List.flatMap_cons, List.cons_append, List.cons_append, List.append_assoc]
    exact .mark .comma (a.spelled.append hs hn)

/-- Arguments in parentheses, with commas between them. -/
theorem spells_derivation (as : List PreparedArgument) :
    Spells (derivation as).leaves ('(' :: (Text.join [','] (as.map text) ++ [')'])) := by
  have hclose : Spells [.mark .closeParen] [')'] := .mark .closeParen .nil
  cases as with
  | nil => exact .mark .openParen hclose
  | cons a rest =>
    obtain ⟨hn, hs⟩ := spells_more hclose (Lexeme.endsName_mark .closeParen _) rest
    rw [derivation, Arguments.leaves, Argument.leaves, List.map_cons, Text.join_cons_flatMap,
      List.flatMap_map, List.append_assoc]
    exact .mark .openParen (a.spelled.append hs hn)

end PreparedArgument

/-! ## The two names -/

/-- A name of the area function. -/
inductive AreaName where
  | plain | qualified
deriving DecidableEq, Repr

/-- What an expression begins with has a value if the expression has one. -/
theorem Derivation.Primary.exists_denote {p : Primary} {ms : Methods} {fs : Factors} {ts : Terms}
    {q : Quantity} (h : (Expression.mk (.mk (.plain (.mk p ms)) fs) ts).denote = .ok q) :
    ∃ r, p.denote = .ok r := by
  obtain ⟨_, h, -⟩ := bind_eq_ok.mp h
  obtain ⟨_, h, -⟩ := bind_eq_ok.mp h
  obtain ⟨r, h, -⟩ := bind_eq_ok.mp h
  exact ⟨r, h⟩

namespace AreaName

/-- The name by itself. -/
def area : Text := ['A', 'r', 'e', 'a']

/-- The name that holds it. -/
def holder : Text := ['V', 'e', 'c', 't', 'o', 'r']

def text : AreaName → Text
  | plain => area
  | qualified => holder ++ '.' :: area

def lexemes : AreaName → List Lexeme
  | plain => [.name area]
  | qualified => [.name holder, .mark .dot, .name area]

def tokens : AreaName → List Token
  | plain => [⟨.run, area⟩]
  | qualified => [⟨.run, holder⟩, ⟨.dot, ['.']⟩, ⟨.run, area⟩]

/-- The call of the function. -/
def call : AreaName → Arguments → Primary
  | plain, as => .function area as
  | qualified, as => .member holder area as

variable (name : AreaName)

theorem leaves_call (as : Arguments) : (name.call as).leaves = name.lexemes ++ as.leaves := by
  cases name <;> rfl

theorem nesting_call (as : Arguments) : (name.call as).nesting = as.nesting := by
  cases name <;> rfl

theorem function_area (arguments : List Argument) :
    Call.function area arguments = Call.area area arguments := by
  rw [Call.function, if_neg (by decide), if_neg (by decide), if_pos (by decide)]

theorem member_area (arguments : List Argument) :
    Call.member holder area arguments = Call.area area arguments := by
  rw [Call.member, if_pos (by decide)]

theorem denote_call (as : Arguments) :
    (name.call as).denote = (do Call.area area (← as.denote)) := by
  cases name with
  | plain => simp only [call, Primary.denote, function_area]
  | qualified => simp only [call, Primary.denote, member_area]

theorem spells_text {lexemes : List Lexeme} {rest : Text} (h : Spells lexemes rest)
    (he : EndsName rest) : Spells (name.lexemes ++ lexemes) (name.text ++ rest) := by
  have hn : Spells (.name area :: lexemes) (area ++ rest) :=
    .name rfl (List.all_eq_true.mp rfl) he h
  cases name with
  | plain => exact hn
  | qualified => exact .name rfl (List.all_eq_true.mp rfl) (Lexeme.endsName_mark .dot _) (.mark .dot hn)

/-! ## Its tokens -/

theorem cut_text (rest : Text) : Token.cut 0 [] [] (name.text ++ '(' :: rest) =
    name.tokens ++ Token.openParen :: Token.cut 0 [] [] rest := by
  have ho : Token.standsAlone 0 '(' rest.head? = some .operator :=
    Token.standsAlone_operator (by decide) _ _
  have hn : Token.cut 0 [] [] (area ++ '(' :: rest) =
      ⟨.run, area⟩ :: Token.openParen :: Token.cut 0 [] [] rest :=
    Token.cut_word (List.cons_ne_nil _ _) (List.all_eq_true.mp rfl) (by decide) ho
  cases name with
  | plain => exact hn
  | qualified =>
    have hd : Token.standsAlone 0 '.' (area ++ '(' :: rest).head? = some .dot := rfl
    have hh : Token.cut 0 [] [] (holder ++ '.' :: (area ++ '(' :: rest)) =
        ⟨.run, holder⟩ :: ⟨.dot, ['.']⟩ :: Token.cut 0 [] [] (area ++ '(' :: rest) :=
      Token.cut_word (List.cons_ne_nil _ _) (List.all_eq_true.mp rfl) (by decide) hd
    rw [text, List.append_assoc, List.cons_append, hh, hn]
    rfl

theorem stripped_text : Text.stripped name.text = name.text := by cases name <;> rfl

/-- Behind the opening parenthesis, arguments are prepared as text by itself. -/
theorem prepare_call {text rest : Text} (h : Text.stripped text = name.text ++ '(' :: rest) :
    prepare text = name.text ++ '(' :: preparedBehind none rest := by
  have ho : ∀ before, Prepared.isSign before Token.openParen = false := fun _ => rfl
  rw [prepare_eq, h, preparedBehind, name.cut_text,
    Prepared.collect_append ho rfl, Prepared.collect_openParen, List.flatten_append,
    List.flatten_cons]
  cases name <;> rfl

/-! ## Its value -/

theorem evaluatePrepared_call (as : List PreparedArgument) :
    evaluatePrepared (name.text ++ '(' :: (Text.join [','] (as.map PreparedArgument.text) ++ [')'])) =
      (do Call.area area (← as.mapM fun a => .quantity <$> a.value)) := by
  let f : Factor := .plain (.mk (name.call (PreparedArgument.derivation as)) .nil)
  have hn : f.nesting ≤ depthLimit := by
    simpa [f, Factor.nesting, Operand.nesting, Methods.nesting, nesting_call] using
      PreparedArgument.nesting_derivation as
  have hs : Spells f.leaves
      (name.text ++ '(' :: (Text.join [','] (as.map PreparedArgument.text) ++ [')'])) := by
    simpa [f, Factor.leaves, Operand.leaves, Methods.leaves, leaves_call] using
      name.spells_text (PreparedArgument.spells_derivation as) (Lexeme.endsName_mark .openParen _)
  rw [evaluatePrepared_factor hn hs]
  simp only [f, Factor.denote, Operand.denote, denote_call, PreparedArgument.denote_derivation]
  exact bind_pure _

theorem evaluatePrepared_call_of_ok {as : List PreparedArgument} {qs : List Quantity}
    (h : as.map PreparedArgument.value = qs.map .ok) :
    evaluatePrepared (name.text ++ '(' :: (Text.join [','] (as.map PreparedArgument.text) ++ [')'])) =
      Call.area area (qs.map .quantity) := by
  rw [evaluatePrepared_call, PreparedArgument.mapM_value h]
  rfl

theorem of_spells_text {lexemes : List Lexeme} {rest : Text}
    (h : Spells lexemes (name.text ++ '(' :: rest)) : ∃ tail,
      lexemes = name.lexemes ++ .mark .openParen :: tail ∧ Spells tail rest := by
  have hn {lexemes : List Lexeme} (h : Spells lexemes (area ++ '(' :: rest)) : ∃ tail,
      lexemes = .name area :: .mark .openParen :: tail ∧ Spells tail rest := by
    obtain ⟨after, rfl, ha⟩ := @Spells.of_name 'A' ['r', 'e', 'a'] ('(' :: rest) rfl
      (List.all_eq_true.mp rfl) (Lexeme.endsName_mark .openParen rest) _ h
    obtain ⟨tail, rfl, ht⟩ := Spells.of_mark (m := .openParen) ha
    exact ⟨tail, rfl, ht⟩
  cases name with
  | plain => exact hn h
  | qualified =>
    obtain ⟨after, rfl, ha⟩ := @Spells.of_name 'V' ['e', 'c', 't', 'o', 'r']
      ('.' :: (area ++ '(' :: rest)) rfl (List.all_eq_true.mp rfl) (Lexeme.endsName_mark .dot _) _ h
    obtain ⟨behind, rfl, hb⟩ := Spells.of_mark (m := .dot) ha
    obtain ⟨tail, rfl, ht⟩ := hn hb
    exact ⟨tail, rfl, ht⟩

/-- A derivation that begins with the name begins with its arguments behind that, and these are
evaluated before all else. -/
theorem exists_arguments : ∀ (e : Expression) {lexemes : List Lexeme} {q : Quantity},
    e.leaves = name.lexemes ++ .mark .openParen :: lexemes → e.denote = .ok q →
      ∃ (as : Arguments) (tail : List Lexeme), .mark .openParen :: lexemes = as.leaves ++ tail ∧
        ∃ r, (name.call as).denote = .ok r
  | .mk (.mk (.negated _) _) _, _, _, h, _ => by cases name <;> cases h
  | .mk (.mk (.plain (.mk (.group _) _)) _) _, _, _, h, _ => by cases name <;> cases h
  | .mk (.mk (.plain (.mk (.function _ as) ms)) fs) ts, _, _, h, hd => by
    cases name with
    | plain =>
      obtain ⟨rfl, hl⟩ := (List.cons.inj h).imp_left Lexeme.name.inj
      refine ⟨as, ms.leaves ++ (fs.leaves ++ ts.leaves), ?_, Primary.exists_denote hd⟩
      simpa [Expression.leaves, Term.leaves, Factor.leaves, Operand.leaves, Primary.leaves,
        lexemes] using hl.symm
    | qualified =>
      cases as <;> simp [Expression.leaves, Term.leaves, Factor.leaves, Operand.leaves,
        Primary.leaves, Arguments.leaves, lexemes] at h
  | .mk (.mk (.plain (.mk (.member _ _ as) ms)) fs) ts, _, _, h, hd => by
    cases name with
    | plain => simp [Expression.leaves, Term.leaves, Factor.leaves, Operand.leaves,
        Primary.leaves, lexemes] at h
    | qualified =>
      simp only [Expression.leaves, Term.leaves, Factor.leaves, Operand.leaves, Primary.leaves,
        lexemes, List.cons_append, List.nil_append, List.cons.injEq, Lexeme.name.injEq, true_and,
        List.append_assoc] at h
      obtain ⟨rfl, rfl, hl⟩ := h
      exact ⟨as, ms.leaves ++ (fs.leaves ++ ts.leaves), hl.symm, Primary.exists_denote hd⟩

/-- What the name takes has two commas outside parentheses, if it has a value. -/
theorem outerCommas_of_evaluatePrepared {rest : Text} {q : Quantity}
    (h : evaluatePrepared (name.text ++ '(' :: rest) = .ok q) {lexemes : List Lexeme}
    (hs : Spells lexemes rest) : outerCommas 0 lexemes = 2 := by
  obtain ⟨e, -, he, hd⟩ := spells_of_evaluatePrepared h
  obtain ⟨tail, hl, ht⟩ := name.of_spells_text he
  obtain ⟨as, after, has, r, hr⟩ := name.exists_arguments e hl hd
  rw [name.denote_call] at hr
  obtain ⟨values, hv, hc⟩ := bind_eq_ok.mp hr
  rw [Spells.unique hs ht, as.outerCommas_leaves has, ← as.length_denote hv, Call.area_length hc]

end AreaName

end BinaryPoint
