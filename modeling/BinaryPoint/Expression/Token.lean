import BinaryPoint.Text.Basic

/-!
# Tokens

An expression without its blanks is cut into operators, dots and runs. Operators and
dots are single characters; everything between them is a run, such as a literal or a name.
Two characters depend on what surrounds them:

* a minus inside square brackets is a sign and belongs to a run, elsewhere it is an operator;
* a point before a digit or a `#` is a decimal point and belongs to a run, elsewhere it
  leads to a member.

A run may be a literal: a hex scalar, a decimal scalar, or a vector of such items. Only the
form is looked at here; whether the number fits a word shows when it is read. A vector
literal may hold several bracket groups, `[..],[..]`, since a comma between two groups
belongs to their run; `Literal.groups` takes them apart.

Main definitions: `Token.standsAlone` decides on one character, `Token.ofText` cuts a text,
`Literal.classify` gives the form of a run.
-/
namespace BinaryPoint

/-- What a token is: an operator or a parenthesis, a point that leads to a member, or anything
else. -/
inductive Token.Kind where
  | operator | dot | run
  deriving DecidableEq, Repr

/-- A piece of an expression. -/
structure Token where
  kind : Token.Kind
  text : Text
  deriving DecidableEq, Repr

namespace Token

/-- The characters that are operators wherever they stand. -/
def operators : List Char := ['+', '*', 'x', '/', '(', ')']

/-- The kind of token that `c` makes by itself, if it does not belong to a run. `depth`
counts the open brackets before it and `next` is the character after it. -/
def standsAlone (depth : Nat) (c : Char) (next : Option Char) : Option Kind :=
  if operators.contains c then some .operator
  else if c = '-' then if depth = 0 then some .operator else none
  else if c = '.' then
    if next.any fun n => Text.isDigit n || n = '#' then none else some .dot
  else none

/-- The count of open brackets after one more character. Surplus closing brackets close nothing. -/
def depthAfter (depth : Nat) (c : Char) : Nat :=
  if c = '[' then depth + 1 else if c = ']' then depth - 1 else depth

/-- The tokens with the run collected so far, if it holds anything, before them. -/
def closeRun (run : Text) (done : List Token) : List Token :=
  if run.isEmpty then done else ⟨.run, run.reverse⟩ :: done

/-- Cuts a text without blanks. `run` holds the characters of the current run and `done`
the finished tokens, both in reverse. -/
def cut (depth : Nat) (run : Text) (done : List Token) : Text → List Token
  | [] => (closeRun run done).reverse
  | c :: rest =>
    match standsAlone depth c rest.head? with
    | some kind => cut depth [] (⟨kind, [c]⟩ :: closeRun run done) rest
    | none => cut (depthAfter depth c) (c :: run) done rest

/-- mirrors `tokenize` -/
def ofText (text : Text) : List Token := cut 0 [] [] (text.filter fun c => !Text.isBlank c)

end Token

/-! ## Literals -/

/-- The form of a run. -/
inductive Literal.Class where
  | hex | decimal | vector | other
  deriving DecidableEq, Repr

namespace Literal

/-- Hex digits after a `#`. -/
def isHex (text : Text) : Bool :=
  match Text.dropMark '#' text with
  | (true, digits) => Text.isHexDigits digits
  | (false, _) => false

/-- Decimal digits, perhaps followed by a point and more of them. -/
def isDecimal (text : Text) : Bool :=
  match Text.cutAt '.' text with
  | some (whole, places) => Text.isDigits whole && Text.isDigits places
  | none => Text.isDigits text

/-- What a vector literal may hold between commas. -/
def isItem (text : Text) : Bool :=
  text.isEmpty || isHex text || isDecimal (Text.dropMark '-' text).2

/-- The text inside the outermost brackets, if there is any. -/
def interior? : Text → Option Text
  | '[' :: rest =>
    if rest.getLast? = some ']' && rest.dropLast ≠ [] then some rest.dropLast else none
  | _ => none

/-- The bracket groups of the interior of a vector literal: the texts between `],[`. -/
def groups (interior : Text) : List Text := go [] [] interior
where
  /-- Collects the current group in `group` and the finished ones in `done`, both reversed. -/
  go (group : Text) (done : List Text) : Text → List Text
    | [] => (group.reverse :: done).reverse
    | ']' :: ',' :: '[' :: rest => go [] (group.reverse :: done) rest
    | c :: rest => go (c :: group) done rest

def items (group : Text) : List Text := Text.splitWhen (· == ',') group

/-- Brackets around items. -/
def isVector (text : Text) : Bool :=
  (interior? text).any fun interior => (groups interior).all fun group => (items group).all isItem

/-- mirrors `classify` -/
def classify (text : Text) : Class :=
  if isHex text then .hex
  else if isDecimal text then .decimal
  else if isVector text then .vector
  else .other

end Literal

end BinaryPoint
