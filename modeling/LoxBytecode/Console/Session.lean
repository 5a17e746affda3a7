import LoxBytecode.Console.Options
import LoxBytecode.Console.Source
import LoxBytecode.Double.Text
import LoxBytecode.Token.Listing

/-!
# Console sessions

A session carries out a command line: it interprets one file, or one line of standard
input after the other with the same machine.  What it writes is a list of events; of
these, debug messages are only shown on request.
-/

namespace LoxBytecode.Console

/-- What a run of the program wrote, and the status that it ended with. -/
structure Report where
  events : List Event
  status : Nat
  deriving DecidableEq, Repr

/-- The status of a command line that cannot be carried out. -/
def usageStatus : Nat := 64

/-- The status of a run that could not read its file. -/
def unreadableStatus : Nat := 74

/-- The events that are shown under the given options. -/
def Options.shown (options : Options) (events : List Event) : List Event :=
  if options.verbose then events else events.filter fun e => !e.isDebug

/-! ## One text -/

/-- Lists the tokens of a text, or interprets it. -/
def process (options : Options) (source : List Char) (m : Machine Double) :
    Interpretation Double :=
  if options.listing then ⟨[.outputLine (describeTokens source)], .ok .ok, m⟩
  else m.interpret options.toSettings source

/-- The status that an interpretation ends the program with.  Compiled code never
ends in a fault; if it did, the run would count as an internal error. -/
def statusOf : Except Fault Outcome → Nat
  | .ok outcome => outcome.exitStatus
  | .error _ => Outcome.runtimeError.exitStatus

/-! ## A file -/

/-- Carries out a command on a file with these contents. -/
def runFile (options : Options) (path : String) (contents : Except ReadError ByteArray) :
    Report :=
  match contents.bind decode with
  | .error e =>
    ⟨options.shown [.debug s!"cannot read {path}: {e.text path}",
      .complaintLine s!"Could not open file \"{path}\"."], unreadableStatus⟩
  | .ok source =>
    let i := process options source {}
    let verdict :=
      match i.result with
      | .ok .ok => []
      | .ok outcome => [Event.debug s!"{path} finished with {outcome.name}"]
      | .error _ => []
    ⟨options.shown (i.events ++ verdict), statusOf i.result⟩

/-! ## A prompt -/

/-- What stands before every line of input. -/
def promptEvent : Event := .output "> "

/-- How the input of a session can end. -/
inductive InputEnd where
  | exhausted
  | interrupted
  deriving DecidableEq, Repr

/-- What is written when the input ends: the prompt that got no answer is followed by
a new line, whichever way it came about. -/
def InputEnd.farewell : InputEnd → Event
  | exhausted => .outputLine ""
  | interrupted => .outputLine ""

/-- The answer to one line of input, with the machine for the next. -/
def answer (options : Options) (m : Machine Double) (line : List Char) :
    Interpretation Double :=
  let i := process options line m
  { i with events := options.shown i.events }

/-- Answers lines of input, each behind its prompt, up to the end of the input.  No way of
ending it is an error.  An answer that ends in a fault would end the session. -/
def converse (options : Options) (ending : InputEnd) (m : Machine Double) :
    List (List Char) → Report
  | [] => ⟨[promptEvent, ending.farewell], 0⟩
  | line :: later =>
    let i := answer options m line
    match i.result with
    | .error _ => ⟨promptEvent :: i.events, statusOf i.result⟩
    | .ok _ =>
      let rest := converse options ending i.machine later
      { rest with events := promptEvent :: i.events ++ rest.events }

/-- Carries out a session at the prompt. -/
def runPrompt (options : Options) (lines : List (List Char)) (ending : InputEnd) : Report :=
  converse options ending {} lines

/-! ## The program -/

/-- Carries out a command, given how to read files and the text of standard input. -/
def runCommand (command : Command) (read : String → Except ReadError ByteArray)
    (input : List Char) (ending : InputEnd) : Report :=
  match command with
  | .help => ⟨[.output usage], 0⟩
  | .unknownFlag flag =>
    ⟨[.complaintLine s!"loxvm: unknown flag '{flag}'", .complaint usage], usageStatus⟩
  | .tooManyPaths => ⟨[.complaint usage], usageStatus⟩
  | .file options path => runFile options path (read path)
  | .prompt options => runPrompt options (Text.lines (Text.unifyLineEndings input)) ending

/-- Carries out a command line. -/
def runProgram (arguments : List String) (read : String → Except ReadError ByteArray)
    (input : List Char) (ending : InputEnd) : Report :=
  runCommand (Command.ofArguments arguments) read input ending

end LoxBytecode.Console
