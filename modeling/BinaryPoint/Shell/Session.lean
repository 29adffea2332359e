import BinaryPoint.Expression.Evaluate
import BinaryPoint.Shell.Settings

/-!
# Sessions

An input comes to an `Outcome`: a result, shown either way, or the words of an error. An outcome
is written as one line.

A session evaluates its input line by line. Blanks around a line are dropped, which also takes
care of both kinds of line ends, lines of blanks are skipped, and the session is over at the exit
keyword. An interactive session asks for every line, also for the one that is not there when the
input ends.

* `Session.react`: what a session makes of one line.
* `Session.run`: what it makes of an input.
* `Session.attend`: the same at a console, where it may be interactive.
-/
namespace BinaryPoint

/-! ## Outcomes -/

/-- What becomes of an input: a result, as text and as JSON, or the words of an error. -/
inductive Outcome where
  | result (shown : Text) (json : Json)
  | failure (message : Text)

namespace Outcome

/-- The outcome of evaluating an expression. -/
def ofExpression (expression : Text) : Outcome :=
  match evaluate expression with
  | .ok q => .result q.describe q.toJson
  | .error e => .failure e.message

/-- The outcome of a conversion between texts. -/
def ofConversion : Except NumberError Text → Outcome
  | .ok text => .result text (.string text)
  | .error e => .failure e.message

/-- The outcome of converting decimal text to a hex word. -/
def toHex (decimal : Text) : Outcome :=
  ofConversion ((Scalar.ofDecimalText decimal).map Scalar.hex)

/-- The outcome of converting a hex word to decimal text. -/
def toDecimal (hex : Text) : Outcome :=
  ofConversion ((Scalar.ofHex hex).map Scalar.decimalText)

def isResult : Outcome → Bool
  | .result .. => true
  | .failure _ => false

/-- The outcome of an input as a JSON object. -/
def toJson (input : Text) : Outcome → Json
  | .result _ json => .object [("input".toList, .string input), ("result".toList, json)]
  | .failure message =>
    .object [("input".toList, .string input), ("error".toList, .string message)]

/-- The outcome of an input in the given format, without an end of line. -/
def render (styled : Styling) (format : OutputFormat) (input : Text) (outcome : Outcome) : Text :=
  match format with
  | .json => (outcome.toJson input).render
  | .text =>
    match outcome with
    | .result shown _ => shown
    | .failure message => styled .red "error:".toList ++ [' '] ++ message

/-- The line for the outcome of an input; mirrors `emit`. -/
def line (styled : Styling) (format : OutputFormat) (input : Text) (outcome : Outcome) : Text :=
  outcome.render styled format input ++ ['\n']

end Outcome

/-! ## Sessions -/

namespace Session

/-- The lines of an input, without their newlines. The last newline begins a line only if
something follows it. -/
def inputLines (input : Text) : List Text :=
  let pieces := Text.splitWhen (· == '\n') input
  if pieces.getLast? = some [] then pieces.dropLast else pieces

/-- What a session makes of a line: it skips it, ends at it, or answers it. -/
inductive Reaction where
  | skip
  | exit
  | answer (line : Text)
  deriving DecidableEq, Repr

def react (styled : Styling) (settings : Settings) (line : Text) : Reaction :=
  let expression := Text.trim line
  if expression.isEmpty then .skip
  else if settings.isExit expression then .exit
  else .answer ((Outcome.ofExpression expression).line styled settings.output expression)

/-- What asks for a line, if anybody is there. -/
def ask (styled : Styling) (settings : Settings) (interactive : Bool) : Text :=
  if interactive then styled .green settings.prompt ++ [' '] else []

/-- What a session has written, and the number of lines that it has answered. -/
structure Transcript where
  output : Text
  answers : Nat
  deriving DecidableEq, Repr

/-- A session over the lines that are left. -/
def converse (styled : Styling) (settings : Settings) (interactive : Bool) :
    List Text → Transcript
  | [] => ⟨ask styled settings interactive, 0⟩
  | line :: rest =>
    let asked := ask styled settings interactive
    match react styled settings line with
    | .exit => ⟨asked, 0⟩
    | .skip =>
      let after := converse styled settings interactive rest
      ⟨asked ++ after.output, after.answers⟩
    | .answer text =>
      let after := converse styled settings interactive rest
      ⟨asked ++ text ++ after.output, after.answers + 1⟩

/-- A session over an input; mirrors `run_session`. -/
def run (styled : Styling) (settings : Settings) (interactive : Bool) (input : Text) : Transcript :=
  converse styled settings interactive (inputLines input)

/-- A session is interactive at a terminal, unless it writes JSON. -/
def isInteractive (console : Console) (settings : Settings) : Bool :=
  console.isTerminal && settings.output = .text

/-- What an interactive session begins with. -/
def banner (styled : Styling) (settings : Settings) : Text :=
  styled .cyan "q16 fixed-point calculator".toList ++ ['\n'] ++ "Type '".toList
    ++ settings.exitKeyword ++ "' to end the session.\n\n".toList

/-- The output of a session at a console; mirrors `run_repl`. -/
def attend (console : Console) (settings : Settings) (input : Text) : Text :=
  let interactive := isInteractive console settings
  (if interactive then banner console.styled settings else [])
    ++ (run console.styled settings interactive input).output

end Session

end BinaryPoint
