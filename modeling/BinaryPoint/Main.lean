import BinaryPoint.Shell.Request

/-!
# The program

Reads the command line, the environment and, for a session, standard input. A session is answered
line by line, as `Session.converse` says; all else is one response.
-/
namespace BinaryPoint

/-- A session with what is left of the input. -/
partial def converseWith (input output : IO.FS.Stream) (styled : Styling) (settings : Settings)
    (interactive : Bool) : IO Unit := do
  output.putStr (String.ofList (Session.ask styled settings interactive))
  output.flush
  let line ← input.getLine
  if line.isEmpty then return
  match Session.react styled settings line.toList with
  | .exit => return
  | .skip => converseWith input output styled settings interactive
  | .answer text =>
    output.putStr (String.ofList text)
    converseWith input output styled settings interactive

end BinaryPoint

open BinaryPoint in
/-- Runs the calculator on its arguments. -/
def main (arguments : List String) : IO UInt32 := do
  let values ← Settings.variableNames.mapM fun name => IO.getEnv (String.ofList name)
  let pairs := Settings.variableNames.zip (values.map fun value => value.map String.toList)
  let environment := fun name => (pairs.lookup name).join
  let output ← IO.getStdout
  let isTerminal ← output.isTty
  let console := ⟨isTerminal, if isTerminal then .escapes else .plain⟩
  let host := Host.ofConsole (fun _ => []) console
  let arguments := arguments.map String.toList
  match host.read arguments with
  | .ok ⟨json, prompt, none⟩ | .ok ⟨json, prompt, some .session⟩ =>
    let settings := Request.settings ⟨json, prompt, none⟩ (.ofEnvironment environment)
    let interactive := Session.isInteractive console settings
    if interactive then
      output.putStr (String.ofList (Session.banner console.styled settings))
    converseWith (← IO.getStdin) output console.styled settings interactive
    return 0
  | _ =>
    let response := host.respond arguments environment []
    output.putStr (String.ofList response.output)
    output.flush
    return response.exitCode.toUInt32
