import BinaryPoint.Text.Quoted

/-!
# Errors

`NumberError` lists the causes for which a literal cannot be read or an operation has no
result, `EvalError` those for which an expression has no value, and `message` the words for
each. A number that is refused inside an expression keeps its own cause.
-/
namespace BinaryPoint

/-! ## Numbers -/

/-- What is wrong with the form of a literal: the width of a hex word (exactly eight digits) or of
a hex literal (one to eight), the parts of canonical or free decimal text, or those of a literal
that may be wide. -/
inductive Malformed where
  | wordWidth | hexWidth | hexDigit | decimalPoint | wholeWidth | fractionWidth | fractionDigits
  | wholeDigits | wideHexDigits | integerDigits
  deriving DecidableEq, Repr

def Malformed.message : Malformed → Text
  | .wordWidth => "expected exactly 8 hex digits".toList
  | .hexWidth => "expected 1 to 8 hex digits".toList
  | .hexDigit => "expected only hex digits".toList
  | .decimalPoint => "expected exactly one decimal point".toList
  | .wholeWidth => "expected exactly 5 integer digits".toList
  | .fractionWidth => "expected exactly 11 fractional digits".toList
  | .fractionDigits => "expected digits after a single decimal point".toList
  | .wholeDigits => "expected integer digits".toList
  | .wideHexDigits => "expected hex digits after '#'".toList
  | .integerDigits => "expected an integer literal".toList

/-- Why a literal or an operation on numbers is refused: the form of the literal, a whole part or
a fraction that does not fit its field, lengths that differ, a zero divisor, or no components. -/
inductive NumberError where
  | malformed (literal : Text) (defect : Malformed)
  | wholeRange (value : Int)
  | fractionRange (value : Int)
  | lengthMismatch (expected got : Nat)
  | divisionByZero
  | noComponents
  deriving DecidableEq, Repr

def NumberError.message : NumberError → Text
  | .malformed literal defect =>
    "Invalid fixed-point literal ".toList ++ Text.quoted literal ++ ": ".toList ++ defect.message
  | .wholeRange value =>
    "Integer part ".toList ++ Text.ofInt value ++ " out of range for Q16.16 (max 0x7FFF)".toList
  | .fractionRange value =>
    "Fraction part ".toList ++ Text.ofInt value ++ " out of range for Q16.16 (max 0xFFFF)".toList
  | .lengthMismatch expected got =>
    "Dimension mismatch: expected ".toList ++ Text.ofNat expected ++ ", got ".toList
      ++ Text.ofNat got
  | .divisionByZero => "Division by zero".toList
  | .noComponents => "Vector must have at least one component".toList

/-! ## Expressions -/

/-- What a reader of expressions may have been looking for. -/
inductive Expected where
  | closingQuote | value | methodName | functionName | openParen | closeParen | argumentEnd
  | operatorOrEnd
  deriving DecidableEq, Repr

def Expected.message : Expected → Text
  | .closingQuote => "closing quote".toList
  | .value => "value".toList
  | .methodName => "method name".toList
  | .functionName => "function name".toList
  | .openParen => "'('".toList
  | .closeParen => "')'".toList
  | .argumentEnd => "',' or ')'".toList
  | .operatorOrEnd => "operator or end of expression".toList

/-- What stands in the place of an operand. -/
inductive OperandKind where
  | text | scalar | vector | integer
  deriving DecidableEq, Repr

def OperandKind.name : OperandKind → Text
  | .text => "text".toList
  | .scalar => "scalar".toList
  | .vector => "vector".toList
  | .integer => "integer".toList

/-- Why an expression has no value. The offset of a character counts the bytes before it. -/
inductive EvalError where
  | number (cause : NumberError)
  | unexpectedChar (c : Char) (offset : Nat)
  | unexpectedLexeme (found : Text) (expected : Expected)
  | unexpectedEnd (expected : Expected)
  | unknownFunction (name : Text)
  | unknownMethod (method : Text) (receiver : OperandKind)
  | argumentCount (call : Text) (expected got : Nat)
  | undefinedFor (operation : Text) (operand : OperandKind)
  | tooDeep (limit : Nat)
  | empty
  deriving DecidableEq, Repr

def EvalError.message : EvalError → Text
  | .number cause => "Fixed-point error: ".toList ++ cause.message
  | .unexpectedChar c offset =>
    "Unexpected character ".toList ++ Text.quotedChar c ++ " at offset ".toList
      ++ Text.ofNat offset
  | .unexpectedLexeme found expected =>
    "Unexpected token ".toList ++ Text.quoted found ++ ", expected ".toList ++ expected.message
  | .unexpectedEnd expected =>
    "Unexpected end of expression, expected ".toList ++ expected.message
  | .unknownFunction name => "Unknown function: ".toList ++ name
  | .unknownMethod method receiver =>
    "Unknown method ".toList ++ method ++ " on ".toList ++ receiver.name
  | .argumentCount call expected got =>
    call ++ " takes ".toList ++ Text.ofNat expected ++ " argument(s), got ".toList
      ++ Text.ofNat got
  | .undefinedFor operation operand =>
    "Type mismatch: ".toList ++ operation ++ " is not defined for ".toList ++ operand.name
  | .tooDeep limit =>
    "Expression nested deeper than ".toList ++ Text.ofNat limit ++ " levels".toList
  | .empty => "Empty expression".toList

end BinaryPoint
