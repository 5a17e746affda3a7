import LoxBytecode.Machine.Interpret

/-!
# Command lines

The arguments of the program are flags and paths in any order.  The first request
for help or unknown flag decides alone what happens; otherwise only the set of flags
counts, and there may be one path at most.
-/

namespace LoxBytecode.Console

/-- One argument of the command line. -/
inductive Argument where
  | help
  | trace
  | dump
  | tokens
  | verbose
  | unknown (flag : String)
  | path (path : String)
  deriving DecidableEq, Repr

namespace Argument

/-- What an argument means.  A lone dash is a path. -/
def ofText (text : String) : Argument :=
  if text = "-h" ∨ text = "--help" then help
  else if text = "--trace" then trace
  else if text = "--dump" then dump
  else if text = "--tokens" then tokens
  else if text = "-v" ∨ text = "--verbose" then verbose
  else if text.toList.head? = some '-' ∧ text ≠ "-" then unknown text
  else path text

/-- The path that an argument is. -/
def path? : Argument → Option String
  | path text => some text
  | _ => none

end Argument

/-- The flags of a run. -/
structure Options extends Settings where
  /-- Tokens are listed, and nothing is executed. -/
  listing : Bool := false
  /-- Debug messages are shown. -/
  verbose : Bool := false
  deriving DecidableEq, Repr

/-- What a command line asks for. -/
inductive Command where
  | help
  | unknownFlag (flag : String)
  | tooManyPaths
  /-- Lines from standard input, one after the other. -/
  | prompt (options : Options)
  | file (options : Options) (path : String)
  deriving DecidableEq, Repr

namespace Command

/-- What an argument decides on its own, whatever stands beside it. -/
def decidedBy? : Argument → Option Command
  | .help => some help
  | .unknown flag => some (unknownFlag flag)
  | _ => none

/-- The flags among the arguments. -/
def optionsOf (arguments : List Argument) : Options where
  tracing := arguments.contains .trace
  dumping := arguments.contains .dump
  listing := arguments.contains .tokens
  verbose := arguments.contains .verbose

/-- What a command line asks for. -/
def ofArguments (texts : List String) : Command :=
  let arguments := texts.map Argument.ofText
  match arguments.findSome? decidedBy? with
  | some command => command
  | none =>
    match arguments.filterMap Argument.path? with
    | [] => prompt (optionsOf arguments)
    | [path] => file (optionsOf arguments) path
    | _ => tooManyPaths

end Command

/-- The version of the program. -/
def version : String := "0.1.0"

/-- How the program is called. -/
def usage : String :=
  "loxvm [OPTIONS] [FILE]\n\n" ++
  "Evaluate a Lox expression. Without FILE, start an interactive prompt.\n\n" ++
  "Options:\n" ++
  "  --trace        Print the stack and each instruction while executing\n" ++
  "  --dump         Print the compiled bytecode before executing\n" ++
  "  --tokens       Print the token stream instead of executing\n" ++
  "  -v, --verbose  Enable debug logging\n" ++
  "  -h, --help     Show this help message\n"

end LoxBytecode.Console
