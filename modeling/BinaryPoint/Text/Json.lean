import BinaryPoint.Text.Basic

/-!
# JSON

The JSON values that results are written as, and their compact text: no blanks, fields in
their given order, and escapes only for the quote, the backslash and control characters.
-/
namespace BinaryPoint

/-- A JSON value without numbers and constants. -/
inductive Json where
  | string (text : Text)
  | array (items : List Json)
  | object (fields : List (Text × Json))

namespace Json

/-- One character of a string. -/
def escaped (c : Char) : Text :=
  if c = '"' || c = '\\' then ['\\', c]
  else if c = '\x08' then ['\\', 'b']
  else if c = '\t' then ['\\', 't']
  else if c = '\n' then ['\\', 'n']
  else if c = '\x0c' then ['\\', 'f']
  else if c = '\r' then ['\\', 'r']
  else if c.toNat < 0x20 then
    ['\\', 'u', '0', '0', Nat.digitChar (c.toNat / 16), Nat.digitChar (c.toNat % 16)]
  else [c]

def quoted (text : Text) : Text := ['"'] ++ text.flatMap escaped ++ ['"']

mutual

/-- The compact text of a value. -/
def render : Json → Text
  | .string text => quoted text
  | .array items => ['['] ++ renderItems items ++ [']']
  | .object fields => ['{'] ++ renderFields fields ++ ['}']

/-- The items of an array, with commas between them. -/
def renderItems : List Json → Text
  | [] => []
  | [item] => render item
  | item :: rest => render item ++ [','] ++ renderItems rest

/-- The fields of an object, with commas between them. -/
def renderFields : List (Text × Json) → Text
  | [] => []
  | [(name, value)] => quoted name ++ [':'] ++ render value
  | (name, value) :: rest => quoted name ++ [':'] ++ render value ++ [','] ++ renderFields rest

end

end Json

end BinaryPoint
