import BinaryPoint.Text.Json
import BinaryPoint.WideLiteral

/-!
# Vectors

A vector has at least one component. Its text is its components in brackets, with commas
between them; reading is more liberal, for brackets, commas and blanks in any arrangement
only separate literals, and one wide literal stands for several components.

Operations on two vectors work component by component. The vectors must be of equal
length, or one of them has a single component that then meets every component of the
other. The dot product asks for equal lengths, the wedge product and the area for pairs.

In JSON a scalar is the string of its literal and a vector the array of its components. Any
literal of a scalar may be read; the components of a vector are read in order, so the first
that is refused decides, and there must be one.

* `Vec.components`: the scalars of the vector in order, never none.
* `Vec.ofText`, `Vec.render`, `Vec.ofJson`, `Vec.toJson`: reading and writing.
* `Vec.toInt`: all components as one integer.
* `Vec.combine`: a scalar operation along two vectors.
* `Vec.dot`, `Vec.wedge`, `Vec.area`: products with a scalar result.
-/
namespace BinaryPoint

/-- A vector: a first component and those after it. -/
@[ext] structure Vec where
  head : Scalar
  tail : List Scalar
  deriving DecidableEq, Repr

namespace Vec

def components (v : Vec) : List Scalar := v.head :: v.tail

def length (v : Vec) : Nat := v.components.length

/-- The vector with the given components, of which there must be one. -/
def ofComponents : List Scalar → Except NumberError Vec
  | [] => .error .noComponents
  | s :: rest => .ok ⟨s, rest⟩

def ofScalar (s : Scalar) : Vec := ⟨s, []⟩

/-- The characters that separate literals. -/
def isDelimiter (c : Char) : Bool := c == '[' || c == ']' || c == ',' || Text.isBlank c

/-- The literals between delimiters. -/
def literals (text : Text) : List Text :=
  (Text.splitWhen isDelimiter text).filter fun piece => !piece.isEmpty

/-- Reads the literals of a text in order, up to the first that is refused; mirrors `parse`. -/
def ofText (text : Text) : Except NumberError Vec := do
  let groups ← (literals text).mapM WideLiteral.expand
  ofComponents groups.flatten

/-- The components in brackets, written by `shown`. -/
def bracketed (shown : Scalar → Text) (v : Vec) : Text :=
  ['['] ++ Text.join [',', ' '] (v.components.map shown) ++ [']']

/-- The literals of the components in brackets. -/
def render (v : Vec) : Text := v.bracketed Scalar.literal

/-- The components as the words of one integer, the first the most significant. -/
def toInt (v : Vec) : Int := WideLiteral.integer v.components

/-! ## Arithmetic -/

/-- The pairs of components after the first pair. -/
def partners (a b : Vec) : Except NumberError (List (Scalar × Scalar)) :=
  if a.length = b.length then .ok (a.tail.zip b.tail)
  else if b.length = 1 then .ok (a.tail.map fun s => (s, b.head))
  else if a.length = 1 then .ok (b.tail.map fun s => (a.head, s))
  else .error (.lengthMismatch a.length b.length)

/-- The operation on each pair of components, up to the first pair that is refused; mirrors
`zip_with`. -/
def combine (op : Scalar → Scalar → Except NumberError Scalar) (a b : Vec) :
    Except NumberError Vec := do
  let pairs ← partners a b
  let head ← op a.head b.head
  let tail ← pairs.mapM fun pair => op pair.1 pair.2
  return ⟨head, tail⟩

def add (a b : Vec) : Except NumberError Vec := combine (fun s t => .ok (s + t)) a b

def sub (a b : Vec) : Except NumberError Vec := combine (fun s t => .ok (s - t)) a b

def mul (a b : Vec) : Except NumberError Vec := combine (fun s t => .ok (s * t)) a b

def div (a b : Vec) : Except NumberError Vec := combine Scalar.div a b

instance : Neg Vec where
  neg v := ⟨-v.head, v.tail.map (-·)⟩

/-- The sum of the products of the components, saturating at every step. -/
def dot (a b : Vec) : Except NumberError Scalar :=
  if a.length = b.length then
    .ok ((a.components.zip b.components).foldl (fun sum pair => sum + pair.1 * pair.2) .zero)
  else .error (.lengthMismatch a.length b.length)

/-- The components of a vector that must have two. -/
def pair (v : Vec) : Except NumberError (Scalar × Scalar) :=
  match v.components with
  | [x, y] => .ok (x, y)
  | components => .error (.lengthMismatch 2 components.length)

def wedge (a b : Vec) : Except NumberError Scalar := do
  let (a₀, a₁) ← a.pair
  let (b₀, b₁) ← b.pair
  return a₁ * b₀ - a₀ * b₁

/-- The signed area that three points span: the wedge product of the first two as seen
from the third. -/
def area (a b c : Vec) : Except NumberError Scalar := do
  let _ ← a.pair
  let _ ← b.pair
  let _ ← c.pair
  wedge (← a.sub c) (← b.sub c)

end Vec

/-! ## JSON -/

/-- Why a JSON value is refused: it is of another type, or what it holds is refused. -/
inductive JsonError where
  | otherType
  | content (cause : NumberError)
  deriving DecidableEq, Repr

namespace Scalar

def toJson (s : Scalar) : Json := .string s.literal

def ofJson : Json → Except JsonError Scalar
  | .string text => (ofLiteral text).mapError .content
  | _ => .error .otherType

end Scalar

namespace Vec

def toJson (v : Vec) : Json := .array (v.components.map Scalar.toJson)

def ofJson : Json → Except JsonError Vec
  | .array items => do
    let scalars ← items.mapM Scalar.ofJson
    (ofComponents scalars).mapError .content
  | _ => .error .otherType

end Vec

end BinaryPoint
