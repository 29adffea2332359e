import BinaryPoint.Error

/-!
# Lexemes

Prepared text as names, quoted strings and marks, with blanks skipped outside quotes. A
name is as long as it can be. There are no escapes in quotes: a string runs to the next
quote. Numbers stand in quotes only, so a digit by itself is as much out of place as any
other character.
-/
namespace BinaryPoint

/-- The punctuation of prepared text. -/
inductive Mark where
  | plus | minus | star | slash | openParen | closeParen | comma | dot
  deriving DecidableEq, Repr

namespace Mark

def char : Mark → Char
  | .plus => '+'
  | .minus => '-'
  | .star => '*'
  | .slash => '/'
  | .openParen => '('
  | .closeParen => ')'
  | .comma => ','
  | .dot => '.'

def ofChar? (c : Char) : Option Mark :=
  [plus, minus, star, slash, openParen, closeParen, comma, dot].find? fun mark => mark.char = c

end Mark

/-- A piece of prepared text: a name, the text between two quotes, or a mark. -/
inductive Lexeme where
  | name (text : Text)
  | quoted (text : Text)
  | mark (m : Mark)
  deriving DecidableEq, Repr

namespace Lexeme

/-- The lexeme as it was written. -/
def text : Lexeme → Text
  | .name text => text
  | .quoted text => ['"'] ++ text ++ ['"']
  | .mark m => [m.char]

/-- A character that a name may begin with. -/
def isNameStart (c : Char) : Bool := c.isAlpha || c = '_'

/-- A character that a name may hold after its first. -/
def isNameRest (c : Char) : Bool := c.isAlphanum || c = '_'

/-- The lexemes of a text that follows `offset` bytes; `done` holds those before it, in
reverse. -/
def scan (offset : Nat) (done : List Lexeme) : Text → Except EvalError (List Lexeme)
  | [] => .ok done.reverse
  | c :: rest =>
    if Text.isBlank c then scan (offset + c.utf8Size) done rest
    else
      match Mark.ofChar? c with
      | some m => scan (offset + c.utf8Size) (.mark m :: done) rest
      | none =>
        if c = '"' then
          match h : Text.cutAt '"' rest with
          | none => .error (.unexpectedEnd .closingQuote)
          | some (inner, after) =>
            scan (offset + Text.byteLength inner + 2) (.quoted inner :: done) after
        else if isNameStart c then
          let more := rest.takeWhile isNameRest
          scan (offset + Text.byteLength (c :: more)) (.name (c :: more) :: done)
            (rest.dropWhile isNameRest)
        else .error (.unexpectedChar c offset)
termination_by text => text.length
decreasing_by
  · simp
  · simp
  · have := Text.length_of_cutAt h
    simp; omega
  · have := (List.dropWhile_sublist (l := rest) isNameRest).length_le
    simp; omega

/-- The lexemes of a text, or the first thing in it that is no lexeme; mirrors `lex`. -/
def ofText (text : Text) : Except EvalError (List Lexeme) := scan 0 [] text

end Lexeme

end BinaryPoint
