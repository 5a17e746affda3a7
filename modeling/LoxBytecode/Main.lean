import LoxBytecode.Console.Session

/-!
# The program

Connects a console session with the real files and standard streams.  Lines of input
are answered as they arrive.
-/

namespace LoxBytecode.Main

open LoxBytecode.Console

/-- Writes events to the standard streams. -/
def emit (events : List Event) : IO Unit := do
  let output ← IO.getStdout
  let errors ← IO.getStderr
  for event in events do
    output.putStr event.stdout
    errors.putStr event.stderr
  output.flush

/-- The contents of a file of the file system. -/
def readFile (path : String) : IO (Except ReadError ByteArray) := do
  try
    return .ok (← IO.FS.readBinFile path)
  catch e =>
    match e with
    | .noFileOrDirectory .. => return .error .notFound
    | .inappropriateType _ code _ =>
      return .error (if code = 20 then .notDirectory else .isDirectory)
    | _ => return .error (.refused (toString e))

/-- Answers lines of standard input until there are no more, and gives the status to end with. -/
partial def converse (options : Options) (m : Machine Double) : IO Nat := do
  emit [promptEvent]
  let text ← (← IO.getStdin).getLine
  if text.isEmpty then
    emit [InputEnd.exhausted.farewell]
    return 0
  else
    let mut m := m
    let mut first := true
    for line in Text.lines (Text.unifyLineEndings text.toList) do
      unless first do
        emit [promptEvent]
      first := false
      let i := answer options m line
      emit i.events
      if let .error _ := i.result then
        return statusOf i.result
      m := i.machine
    converse options m

end LoxBytecode.Main

/-- Carries out the command line. -/
def main (arguments : List String) : IO UInt32 := do
  let report ←
    match LoxBytecode.Console.Command.ofArguments arguments with
    | .prompt options => return (← LoxBytecode.Main.converse options {}).toUInt32
    | .file _ path =>
      let contents ← LoxBytecode.Main.readFile path
      pure (LoxBytecode.Console.runProgram arguments (fun _ => contents) [] .exhausted)
    | _ => pure (LoxBytecode.Console.runProgram arguments (fun _ => .error .notFound) [] .exhausted)
  LoxBytecode.Main.emit report.events
  return report.status.toUInt32
