import BinaryPoint.Error
import BinaryPoint.Vec

/-!
# Quantities

What an expression stands for: a scalar, a vector, or the integer that a vector packs. A
scalar that meets a vector acts as a vector of one component. Integers are results only;
no operation is defined for them.

* `Quantity.apply`, `Quantity.negate`: the operators of expressions.
* `Quantity.render`, `Quantity.describe`, `Quantity.toJson`: how a result is shown.
-/
namespace BinaryPoint

/-- The value of an expression. -/
inductive Quantity where
  | scalar (s : Scalar)
  | vector (v : Vec)
  | integer (n : Int)
  deriving DecidableEq, Repr

/-- The operators between two operands. -/
inductive Operation where
  | add | subtract | multiply | divide
  deriving DecidableEq, Repr

namespace Operation

def name : Operation → Text
  | .add => "Add".toList
  | .subtract => "Subtract".toList
  | .multiply => "Multiply".toList
  | .divide => "Divide".toList

def onScalars (op : Operation) (a b : Scalar) : Except NumberError Scalar :=
  match op with
  | .add => .ok (a + b)
  | .subtract => .ok (a - b)
  | .multiply => .ok (a * b)
  | .divide => a.div b

def onVecs (op : Operation) (a b : Vec) : Except NumberError Vec :=
  match op with
  | .add => a.add b
  | .subtract => a.sub b
  | .multiply => a.mul b
  | .divide => a.div b

end Operation

namespace Quantity

/-- What the quantity is as an operand. -/
def kind : Quantity → OperandKind
  | .scalar _ => .scalar
  | .vector _ => .vector
  | .integer _ => .integer

/-- A scalar, if it has one. -/
def ofScalar? (r : Except NumberError Scalar) : Except EvalError Quantity :=
  match r with
  | .ok s => .ok (.scalar s)
  | .error e => .error (.number e)

/-- A vector, if it has one. -/
def ofVec? (r : Except NumberError Vec) : Except EvalError Quantity :=
  match r with
  | .ok v => .ok (.vector v)
  | .error e => .error (.number e)

/-- mirrors `binary` -/
def apply (op : Operation) : Quantity → Quantity → Except EvalError Quantity
  | .scalar a, .scalar b => ofScalar? (op.onScalars a b)
  | .vector a, .vector b => ofVec? (op.onVecs a b)
  | .vector a, .scalar b => ofVec? (op.onVecs a (.ofScalar b))
  | .scalar a, .vector b => ofVec? (op.onVecs (.ofScalar a) b)
  | .integer _, _ | _, .integer _ => .error (.undefinedFor op.name .integer)

def negate : Quantity → Except EvalError Quantity
  | .scalar a => .ok (.scalar (-a))
  | .vector a => .ok (.vector (-a))
  | .integer _ => .error (.undefinedFor "Negate".toList .integer)

/-- The quantity after `count` changes of sign, one after the other. -/
def negateTimes : (count : Nat) → Quantity → Except EvalError Quantity
  | 0, q => .ok q
  | count + 1, q =>
    match q.negate with
    | .ok negated => negateTimes count negated
    | .error e => .error e

/-- The literals of the components, or the digits of the integer. -/
def render : Quantity → Text
  | .scalar s => s.literal
  | .vector v => v.render
  | .integer n => Text.ofInt n

/-- The literals of the components with their decimal texts, or the digits of the integer. -/
def describe : Quantity → Text
  | .scalar s => s.described
  | .vector v => v.bracketed Scalar.described
  | .integer n => Text.ofInt n

/-- The content of the quantity: literals, or the digits of the integer. -/
def content : Quantity → Json
  | .scalar s => s.toJson
  | .vector v => v.toJson
  | .integer n => .string (Text.ofInt n)

/-- The kind of the quantity and its content. -/
def toJson (q : Quantity) : Json :=
  .object [("kind".toList, .string q.kind.name), ("value".toList, q.content)]

end Quantity

end BinaryPoint
