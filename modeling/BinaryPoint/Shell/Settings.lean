import BinaryPoint.Text.Basic

/-!
# Settings

What a session depends on besides its input: the format of its results, what the environment
says about the session, and where the output goes.

A variable of the environment that is unset leaves the default, and so does an exit keyword of
blanks or an output format of an unknown name.

Words can stand out in a colour. How a console shows that, and whether it does, is its own
matter, so a `Styling` is a parameter of whatever is written for people.
-/
namespace BinaryPoint

/-! ## Formats -/

/-- How results are written: as text for people, or as one JSON object a line. -/
inductive OutputFormat where
  | text | json
  deriving DecidableEq, Repr

/-- A name that no output format has, in small letters. -/
structure UnknownFormat where
  name : Text
  deriving DecidableEq, Repr

/-- The words for an unknown format. -/
def UnknownFormat.message (unknown : UnknownFormat) : Text :=
  "unknown output format: ".toList ++ unknown.name

namespace OutputFormat

def name : OutputFormat → Text
  | .text => "text".toList
  | .json => "json".toList

/-- The format of a name in any case of letters. -/
def ofName (name : Text) : Except UnknownFormat OutputFormat :=
  let small := Text.lower name
  if small = OutputFormat.text.name then .ok .text
  else if small = OutputFormat.json.name then .ok .json
  else .error ⟨small⟩

end OutputFormat

/-! ## The environment -/

/-- The settings of a session: what asks for a line at a terminal, the line that ends the
session, in any case of letters, and the format of results. -/
structure Settings where
  prompt : Text := "q16>".toList
  exitKeyword : Text := "exit".toList
  output : OutputFormat := .text
  deriving DecidableEq, Repr

namespace Settings

def promptVariable : Text := "Q16_PROMPT".toList

def exitVariable : Text := "Q16_EXIT_KEYWORD".toList

def outputVariable : Text := "Q16_OUTPUT".toList

/-- The variables that settings are read from. -/
def variableNames : List Text := [promptVariable, exitVariable, outputVariable]

/-- The exit keyword of a variable's value, if it holds more than blanks. -/
def keyword? (value : Text) : Option Text :=
  let keyword := Text.trim value
  if keyword.isEmpty then none else some keyword

/-- The settings in an environment; mirrors `from_lookup`. -/
def ofEnvironment (lookup : Text → Option Text) : Settings :=
  let default : Settings := {}
  { prompt := (lookup promptVariable).getD default.prompt
    exitKeyword := ((lookup exitVariable).bind keyword?).getD default.exitKeyword
    output :=
      ((lookup outputVariable).bind fun name => (OutputFormat.ofName name).toOption).getD
        default.output }

/-- The line ends the session. -/
def isExit (settings : Settings) (line : Text) : Bool :=
  Text.sameLetters (Text.trim line) settings.exitKeyword

end Settings

/-! ## The console -/

/-- The colours of words that stand out. -/
inductive Color where
  | red | green | cyan
  deriving DecidableEq, Repr

/-- How words in a colour are written. -/
abbrev Styling := Color → Text → Text

namespace Styling

/-- Colours are not shown. -/
def plain : Styling := fun _ text => text

/-- Bold words in a colour, by escape sequences. -/
def escapes : Styling := fun color text =>
  let number := match color with
    | .red => '1'
    | .green => '2'
    | .cyan => '6'
  "\x1b[3".toList ++ [number] ++ "m\x1b[1m".toList ++ text ++ "\x1b[0m".toList

end Styling

/-- Where the output goes: whether this is a terminal, and how it shows colours. -/
structure Console where
  isTerminal : Bool
  styled : Styling

end BinaryPoint
