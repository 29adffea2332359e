import BinaryPoint.Shell.Session

/-!
# Requests

A run of the program carries out the request of its command line on a `Host`, which says how
command lines are read and where the output goes.

`Request.ofArguments` is a reader of command lines: flags, a command, and for most commands one
operand. Flags may stand before the command and among its arguments, each at most once in either
place. After `--` everything is an operand. Without a command a session is run.

An argument that begins with a dash is a flag. The operands of `eval` and `to-hex` may begin with
a dash too, so as long as such an operand is awaited a dash makes a flag only together with the
name of one. What is asked about the program itself, by `--help` and `-h`, by `--version` and `-V`
in front of a command, and by the command `help`, takes the place of a request.

* `Host.respond`: the exit code and the output of the program.
* `Request.ofArguments`: reads a command line, or says what is shown in its place.
* `respond`: the response where the output is no terminal and shows no colours.
-/
namespace BinaryPoint

/-! ## Responses -/

/-- What to do: evaluate the lines of the input or one expression, or convert between decimal
text and hex words. -/
inductive Command where
  | session
  | evaluate (expression : Text)
  | toHex (decimal : Text)
  | toDecimal (hex : Text)
  deriving DecidableEq, Repr

/-- A command line: whether JSON is asked for, the prompt and the command, if they are given. -/
structure Request where
  json : Bool
  prompt : Option Text
  command : Option Command
  deriving DecidableEq, Repr

/-- The settings of the environment as the request changes them. -/
def Request.settings (request : Request) (environment : Settings) : Settings :=
  { environment with
    output := if request.json then .json else environment.output
    prompt := request.prompt.getD environment.prompt }

/-- The exit code and the standard output of a run: 0 is success, 1 an error in a single input,
2 a command line that is refused. -/
structure Response where
  exitCode : Nat
  output : Text
  deriving DecidableEq, Repr

/-- The response to a single input. -/
def Response.ofOutcome (styled : Styling) (format : OutputFormat) (input : Text)
    (outcome : Outcome) : Response :=
  ⟨if outcome.isResult then 0 else 1, outcome.line styled format input⟩

/-- Carries out a command under the given settings. -/
def Command.run (console : Console) (settings : Settings) (input : Text) : Command → Response
  | .session => ⟨0, Session.attend console settings input⟩
  | .evaluate expression =>
    .ofOutcome console.styled settings.output expression (.ofExpression expression)
  | .toHex decimal => .ofOutcome console.styled settings.output decimal (.toHex decimal)
  | .toDecimal hex => .ofOutcome console.styled settings.output hex (.toDecimal hex)

/-- What a program runs on: its reader of command lines, which may also answer one by itself, and
the console of its output. -/
structure Host where
  read : List Text → Except Response Request
  console : Console

/-- The response to a command line in an environment, with the given standard input. -/
def Host.respond (host : Host) (arguments : List Text) (environment : Text → Option Text)
    (input : Text) : Response :=
  match host.read arguments with
  | .ok request =>
    (request.command.getD .session).run host.console
      (request.settings (.ofEnvironment environment)) input
  | .error response => response

/-! ## Command lines -/

/-- What is shown in place of carrying out a request: help, the version, or how the program is
used, after a command line that is refused. -/
inductive Notice where
  | help | version | usage
  deriving DecidableEq, Repr

/-- The flags given in one place. -/
structure Flags where
  json : Bool := false
  prompt : Option Text := none
  deriving DecidableEq, Repr

/-- Where an argument stands: in front of a command or behind it, where an operand may be
awaited that begins with a dash. -/
inductive Place where
  | front
  | behind (dashes : Bool)
  deriving DecidableEq, Repr

/-- The form of an argument: the end of the flags, a flag, with its value if that is attached, an
operand, or one that is answered with a notice. -/
inductive ArgumentForm where
  | separator
  | json
  | prompt (value : Option Text)
  | operand
  | notice (notice : Notice)
  deriving DecidableEq, Repr

namespace ArgumentForm

/-- The argument that ends the flags. -/
def separatorText : Text := "--".toList

/-- The form of an argument that begins with a dash and has the name of no flag. -/
def ofUnknown : Place → ArgumentForm
  | .behind true => .operand
  | .behind false | .front => .notice .usage

/-- The form of a flag without its two dashes. -/
def ofLong (place : Place) (flag : Text) : ArgumentForm :=
  let (name, value) := match Text.cutAt '=' flag with
    | some (name, value) => (name, some value)
    | none => (flag, none)
  let alone (form : ArgumentForm) := if value.isSome then .notice .usage else form
  if name = "json".toList then alone .json
  else if name = "prompt".toList then .prompt value
  else if name = "help".toList then alone (.notice .help)
  else if name = "version".toList ∧ place = .front then alone (.notice .version)
  else ofUnknown place

/-- The form of short flags without their dash. Only the first of them counts, but an operand is
taken for flags only if all its letters are names of flags. -/
def ofShort (place : Place) (flags : Text) : ArgumentForm :=
  if place = .behind true ∧ flags.any (· ≠ 'h') then .operand
  else
    match flags.head? with
    | some 'h' => .notice .help
    | some 'V' => if place = .front then .notice .version else .notice .usage
    | _ => .notice .usage

def ofText (place : Place) (argument : Text) : ArgumentForm :=
  if argument = separatorText then .separator
  else
    match argument with
    | '-' :: '-' :: flag => ofLong place flag
    | '-' :: c :: flags => ofShort place (c :: flags)
    | _ => .operand

end ArgumentForm

namespace Flags

/-- The flags with one for JSON, which must be the first. -/
def withJson (flags : Flags) : Except Notice Flags :=
  if flags.json then .error .usage else .ok { flags with json := true }

/-- The flags with a prompt, which must be the first. -/
def withPrompt (flags : Flags) (prompt : Text) : Except Notice Flags :=
  if flags.prompt.isSome then .error .usage else .ok { flags with prompt := some prompt }

/-- Reads flags up to the first operand or separator, which is left with all that follows. -/
def read (place : Place) (flags : Flags) : List Text → Except Notice (Flags × List Text)
  | [] => .ok (flags, [])
  | argument :: rest =>
    match ArgumentForm.ofText place argument with
    | .separator | .operand => .ok (flags, argument :: rest)
    | .json => do read place (← flags.withJson) rest
    | .prompt (some value) => do read place (← flags.withPrompt value) rest
    | .prompt none =>
      match rest with
      | [] => .error .usage
      | value :: rest =>
        if ArgumentForm.ofText place value = .operand then do
          read place (← flags.withPrompt value) rest
        else .error .usage
    | .notice notice => .error notice

/-- Reads flags behind a command, where no operand is awaited. -/
def readAll (flags : Flags) (arguments : List Text) : Except Notice Flags := do
  let (flags, rest) ← flags.read (.behind false) arguments
  if rest = [] ∨ rest = [ArgumentForm.separatorText] then .ok flags else .error .usage

/-- Reads the flags and the only operand behind a command. -/
def readOperand (dashes : Bool) (arguments : List Text) : Except Notice (Flags × Text) := do
  match ← Flags.read (.behind dashes) {} arguments with
  | (_, []) => .error .usage
  | (flags, first :: rest) =>
    if first = ArgumentForm.separatorText then
      match rest with
      | [operand] => .ok (flags, operand)
      | _ => .error .usage
    else do
      let flags ← flags.readAll rest
      return (flags, first)

end Flags

namespace Request

/-- The command of a name, with the flags among its arguments. -/
def command? (name : Text) (arguments : List Text) : Except Notice (Flags × Command) := do
  if name = "repl".toList then
    let flags ← Flags.readAll {} arguments
    return (flags, .session)
  else if name = "eval".toList then
    let (flags, operand) ← Flags.readOperand true arguments
    return (flags, .evaluate operand)
  else if name = "to-hex".toList then
    let (flags, operand) ← Flags.readOperand true arguments
    return (flags, .toHex operand)
  else if name = "to-decimal".toList then
    let (flags, operand) ← Flags.readOperand false arguments
    return (flags, .toDecimal operand)
  else .error .usage

/-- What the command `help` about the given topics comes to. -/
def helpOn : List Text → Notice
  | [] => .help
  | [topic] =>
    if topic ∈ ["repl", "eval", "to-hex", "to-decimal", "help"].map String.toList then .help
    else .usage
  | _ => .usage

/-- Reads a command line. Of two prompts the one nearer to the command counts. -/
def ofArguments (arguments : List Text) : Except Notice Request := do
  let (outer, rest) ← Flags.read .front {} arguments
  match rest with
  | [] => return ⟨outer.json, outer.prompt, none⟩
  | name :: rest =>
    if name = ArgumentForm.separatorText then
      if rest.isEmpty then return ⟨outer.json, outer.prompt, none⟩ else .error .usage
    else if name = "help".toList then .error (helpOn rest)
    else
      let (inner, command) ← command? name rest
      return ⟨outer.json || inner.json, inner.prompt.or outer.prompt, some command⟩

end Request

/-- The response to a notice; `words` are what help or the version shows. -/
def Notice.response (words : Text) : Notice → Response
  | .help | .version => ⟨0, words⟩
  | .usage => ⟨2, []⟩

/-- A host with the reader of command lines above; `words` are what it shows for a command line
that asks for help or for the version. -/
def Host.ofConsole (words : List Text → Text) (console : Console) : Host where
  read arguments := (Request.ofArguments arguments).mapError (Notice.response (words arguments))
  console := console

/-- The response to a command line in an environment, with the given standard input, where the
output is no terminal and shows no colours; the words of help and version are left out. -/
def respond (arguments : List Text) (environment : Text → Option Text) (input : Text) :
    Response :=
  (Host.ofConsole (fun _ => []) ⟨false, .plain⟩).respond arguments environment input

end BinaryPoint
