import BinaryPoint.Expression.Call
import BinaryPoint.Expression.Phrase

/-!
# Evaluation

Prepared text is evaluated while it is read, from left to right, so the first thing that
goes wrong is the error, whether it is a matter of form or of numbers. The grammar:

    expression := term (('+' | '-') term)*
    term       := factor (('*' | '/') factor)*
    factor     := '-'* operand
    operand    := primary ('.' NAME arguments)*
    primary    := '(' expression ')' | NAME arguments | NAME '.' NAME arguments
    arguments  := '(' ')' | '(' argument (',' argument)* ')'
    argument   := STRING | expression

Each rule is a phrase over `inner`, the phrase for an expression one level further in.
`Grammar.expression` ties the knot along the number of levels that are left, so an
expression in parentheses or among arguments beyond the limit is refused.

* `evaluatePrepared`: the quantity that prepared text stands for.
* `evaluate`: the quantity that an expression stands for.
-/
namespace BinaryPoint

namespace Grammar

/-- An argument: a string, or the value of an expression. -/
def argument (inner : Phrase Quantity) : Phrase Argument where
  read
    | .quoted text :: rest => .ok (.text text, rest)
    | s => (inner.map Argument.quantity).read s
  length_lt {s a rest} h := by
    split at h
    · cases h
      exact Nat.lt_succ_self _
    · exact Phrase.length_lt _ h

/-- After an argument and a comma, one argument more; they are collected in reverse. -/
def nextArgument (inner : Phrase Quantity) (arguments : List Argument) :
    Lexeme → Option (Phrase (List Argument))
  | .mark .comma => some ((argument inner).map (· :: arguments))
  | _ => none

/-- The arguments of a call, in parentheses; mirrors `args`. -/
def arguments (inner : Phrase Quantity) : Phrase (List Argument) :=
  (Phrase.mark .openParen .openParen).andThen fun _ =>
    .orMark .closeParen [] <|
      (Phrase.chain ((argument inner).map ([·])) (nextArgument inner)).andThen fun reversed =>
        (Phrase.mark .closeParen .argumentEnd).map fun _ => reversed.reverse

/-- An expression in parentheses, or the call of a function; mirrors `primary`. -/
def primary (inner : Phrase Quantity) : Phrase Quantity :=
  .byHead .value fun
    | .mark .openParen =>
      some (inner.andThen fun q => (Phrase.mark .closeParen .closeParen).map fun _ => q)
    | .name holder =>
      some (.ifMark .dot
        ((Phrase.name .functionName).andThen fun name =>
          (arguments inner).check (Call.member holder name))
        ((arguments inner).check (Call.function holder)))
    | _ => none

/-- After an operand and a point, the call of a method on it. -/
def nextMethod (inner : Phrase Quantity) (receiver : Quantity) : Lexeme → Option (Phrase Quantity)
  | .mark .dot =>
    some ((Phrase.name .methodName).andThen fun name =>
      (arguments inner).check (Call.method receiver name))
  | _ => none

/-- A primary with any number of method calls; mirrors `postfix`. -/
def operand (inner : Phrase Quantity) : Phrase Quantity :=
  .chain (primary inner) (nextMethod inner)

/-- An operand behind any number of signs; mirrors `unary`. -/
def factor (inner : Phrase Quantity) : Phrase Quantity :=
  .afterMarks .minus fun count => (operand inner).check (Quantity.negateTimes count)

/-- The operation of a mark between factors. -/
def multiplicative : Lexeme → Option Operation
  | .mark .star => some .multiply
  | .mark .slash => some .divide
  | _ => none

/-- The operation of a mark between terms. -/
def additive : Lexeme → Option Operation
  | .mark .plus => some .add
  | .mark .minus => some .subtract
  | _ => none

/-- After a left operand and an operator, the right operand and the result. -/
def nextOperand (operation : Lexeme → Option Operation) (right : Phrase Quantity)
    (left : Quantity) (lexeme : Lexeme) : Option (Phrase Quantity) :=
  (operation lexeme).map fun op => right.check (Quantity.apply op left)

def term (inner : Phrase Quantity) : Phrase Quantity :=
  .chain (factor inner) (nextOperand multiplicative (factor inner))

def sum (inner : Phrase Quantity) : Phrase Quantity :=
  .chain (term inner) (nextOperand additive (term inner))

/-- An expression in which `levels` further levels of nesting are allowed, out of `limit`;
mirrors `nested_expr`. -/
def expression (limit : Nat) : (levels : Nat) → Phrase Quantity
  | 0 => sum (.fail (.tooDeep limit))
  | levels + 1 => sum (expression limit levels)

end Grammar

/-- The greatest depth of nested expressions. -/
def depthLimit : Nat := 128

/-- The quantity that lexemes stand for, all of them taken together. -/
def evaluateLexemes (lexemes : List Lexeme) : Except EvalError Quantity :=
  match lexemes with
  | [] => .error .empty
  | _ =>
    match (Grammar.expression depthLimit depthLimit).read lexemes with
    | .ok (q, []) => .ok q
    | .ok (_, rest) => .error (Phrase.refusal .operatorOrEnd rest)
    | .error e => .error e

/-- mirrors `evaluate_rewritten` -/
def evaluatePrepared (text : Text) : Except EvalError Quantity :=
  Lexeme.ofText text >>= evaluateLexemes

def evaluate (text : Text) : Except EvalError Quantity := evaluatePrepared (prepare text)

end BinaryPoint
