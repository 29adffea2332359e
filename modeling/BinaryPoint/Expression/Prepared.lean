import BinaryPoint.Expression.Token
import BinaryPoint.Vec

/-!
# Prepared text

Before an expression is evaluated its literals are replaced by calls that build them from
quoted text, and the alias `x` by `*`. All else stays as written. The pieces are put
together without separators.

* `Prepared.pieces`: the prepared text of a list of tokens, piece by piece. A minus that
  negates a decimal literal makes one piece with it, so that `-32768` is one number.
* `prepare`: from an expression to its prepared text.
-/
namespace BinaryPoint

namespace Prepared

/-- The name of the call that builds a scalar. -/
def scalarConstructor : Text := "ScalarFromText".toList

/-- The name of the call that builds a vector. -/
def vectorConstructor : Text := "VectorFromText".toList

/-- The call of a constructor on a quoted literal. -/
def construct (constructor literal : Text) : Text :=
  constructor ++ ['(', '"'] ++ literal ++ ['"', ')']

/-- A bracket group: a vector to build, or itself if it is no vector. -/
def group (inner : Text) : Text :=
  let bracketed := ['['] ++ inner ++ [']']
  match Vec.ofText bracketed with
  | .ok _ => construct vectorConstructor bracketed
  | .error _ => inner

/-- A vector literal: its bracket groups but for the empty ones, as arguments of a call;
mirrors `rewrite_vector`. -/
def vector (literal : Text) : Text :=
  let groups := Literal.groups ((Literal.interior? literal).getD literal)
  Text.join [','] ((groups.filter fun inner => !inner.isEmpty).map group)

/-- A single token. -/
def piece (token : Token) : Text :=
  match token.kind with
  | .operator => if token.text = ['x'] then ['*'] else token.text
  | .dot => token.text
  | .run =>
    match Literal.classify token.text with
    | .hex | .decimal => construct scalarConstructor token.text
    | .vector => vector token.text
    | .other => token.text

/-- A minus at the start or after an operator that does not close a parenthesis; mirrors
`is_prefix_minus`. -/
def isSign (before : Option Token) (token : Token) : Bool :=
  token.kind = .operator && token.text = ['-']
    && before.all fun b => b.kind = .operator && b.text ≠ [')']

def isDecimal (token : Token) : Bool := token.kind = .run && Literal.isDecimal token.text

/-- The pieces of tokens that follow the token `before`; `done` holds those before them,
in reverse. -/
def collect (before : Option Token) (done : List Text) : List Token → List Text
  | [] => done.reverse
  | [token] => (piece token :: done).reverse
  | token :: next :: rest =>
    if isSign before token && isDecimal next then
      collect (some next) (construct scalarConstructor ('-' :: next.text) :: done) rest
    else collect (some token) (piece token :: done) (next :: rest)

/-- The pieces of the prepared text, one for each token but for signs that are folded
into their literal. -/
def pieces (tokens : List Token) : List Text := collect none [] tokens

/-- mirrors `rewrite` -/
def ofTokens (tokens : List Token) : Text := (pieces tokens).flatten

end Prepared

def prepare (expression : Text) : Text := Prepared.ofTokens (Token.ofText expression)

end BinaryPoint
