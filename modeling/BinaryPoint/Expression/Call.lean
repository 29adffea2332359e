import BinaryPoint.Expression.Quantity
import BinaryPoint.Expression.Prepared

/-!
# Calls

The functions and methods of expressions. An argument is quoted text or a quantity; only
the constructors take text, and all else takes quantities. Constructors are known by
their exact names, the rest by names in any case of letters.

The count of arguments is checked before their kinds, and the kinds in order.

* `Call.function`, `Call.member`: calls of a name, and of a name within another.
* `Call.method`: calls on a receiver.
-/
namespace BinaryPoint

/-- An argument of a call: quoted text, or the value of an expression. -/
inductive Argument where
  | text (t : Text)
  | quantity (q : Quantity)
  deriving DecidableEq, Repr

namespace Argument

/-- The text that `call` needs here. -/
def toText (call : Text) : Argument → Except EvalError Text
  | .text t => .ok t
  | .quantity q => .error (.undefinedFor call q.kind)

/-- The quantity that `call` needs here. -/
def toQuantity (call : Text) : Argument → Except EvalError Quantity
  | .text _ => .error (.undefinedFor call .text)
  | .quantity q => .ok q

/-- The vector that `call` needs here; a scalar gives a vector of one component. -/
def toVec (call : Text) : Argument → Except EvalError Vec
  | .text _ => .error (.undefinedFor call .text)
  | .quantity (.vector v) => .ok v
  | .quantity (.scalar s) => .ok (.ofScalar s)
  | .quantity (.integer _) => .error (.undefinedFor call .integer)

end Argument

namespace Call

def noArguments (call : Text) : List Argument → Except EvalError Unit
  | [] => .ok ()
  | arguments => .error (.argumentCount call 0 arguments.length)

def oneArgument (call : Text) : List Argument → Except EvalError Argument
  | [a] => .ok a
  | arguments => .error (.argumentCount call 1 arguments.length)

/-- The area that three points span. -/
def area (call : Text) : List Argument → Except EvalError Quantity
  | [a, b, c] => do
    let a ← a.toVec call
    let b ← b.toVec call
    let c ← c.toVec call
    Quantity.ofScalar? (Vec.area a b c)
  | arguments => .error (.argumentCount call 3 arguments.length)

/-- The name of the area function, in small letters. -/
def areaName : Text := "area".toList

/-- The name that holds functions on vectors. -/
def vectorNamespace : Text := "Vector".toList

/-- mirrors `call_function` -/
def function (name : Text) (arguments : List Argument) : Except EvalError Quantity :=
  if name = Prepared.scalarConstructor then do
    let text ← (← oneArgument name arguments).toText name
    Quantity.ofScalar? (Scalar.ofLiteral text)
  else if name = Prepared.vectorConstructor then do
    let text ← (← oneArgument name arguments).toText name
    Quantity.ofVec? (Vec.ofText text)
  else if Text.lower name = areaName then area name arguments
  else .error (.unknownFunction name)

/-- The call of a function that another name holds; mirrors `call_static`. -/
def member (holder name : Text) (arguments : List Argument) : Except EvalError Quantity :=
  if holder = vectorNamespace ∧ Text.lower name = areaName then area name arguments
  else .error (.unknownFunction (holder ++ ['.'] ++ name))

inductive Method where
  | operation (op : Operation)
  | negate
  | dot
  | wedge
  | int
  | len
  deriving DecidableEq, Repr

/-- The methods by their names in small letters. -/
def methods : List (Text × Method) :=
  [("add".toList, .operation .add), ("subtract".toList, .operation .subtract),
   ("multiply".toList, .operation .multiply), ("divide".toList, .operation .divide),
   ("negate".toList, .negate), ("dot".toList, .dot), ("wedge".toList, .wedge),
   ("int".toList, .int), ("len".toList, .len)]

/-- The call of a method on a receiver. Integers have no methods, and scalars only the
operators and the change of sign. Mirrors `call_method` and `call_vector_method`. -/
def method (receiver : Quantity) (name : Text) (arguments : List Argument) :
    Except EvalError Quantity :=
  match receiver, methods.lookup (Text.lower name) with
  | .integer _, _ => .error (.unknownMethod name .integer)
  | q, some (.operation op) => do
    let other ← (← oneArgument name arguments).toQuantity name
    Quantity.apply op q other
  | q, some .negate => do
    noArguments name arguments
    q.negate
  | .vector v, some .dot => do
    let other ← (← oneArgument name arguments).toVec name
    Quantity.ofScalar? (v.dot other)
  | .vector v, some .wedge => do
    let other ← (← oneArgument name arguments).toVec name
    Quantity.ofScalar? (v.wedge other)
  | .vector v, some .int => do
    noArguments name arguments
    return .integer v.toInt
  | .vector v, some .len => do
    noArguments name arguments
    return .scalar (.ofWhole v.length)
  | q, _ => .error (.unknownMethod name q.kind)

end Call

end BinaryPoint
