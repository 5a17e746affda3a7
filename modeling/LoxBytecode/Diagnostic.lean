/-!
# Diagnostics

What can be wrong with a source text or with an execution, and how it is worded.
A diagnostic names a line and, for a fault found at a token, that token; a failed
compilation carries its diagnostics in the order in which they were found.
-/

namespace LoxBytecode

/-- A line number in a message that always shows one. -/
def lineText : Option Int → String
  | some line => toString line
  | none => "None"

/-- A message with the line that it is about, if any. -/
def locatedText (message : String) : Option Int → String
  | some line => s!"[line {line}] Error: {message}"
  | none => message

/-- A fault found while reading or compiling a source text. -/
structure Diagnostic where
  message : String
  line : Option Int
  /-- Where on the line, as it stands in the text: the token, the end, or nothing. -/
  location : String := ""
  deriving DecidableEq, Repr

def Diagnostic.text (d : Diagnostic) : String :=
  s!"[line {lineText d.line}] Error{d.location}: {d.message}"

structure CompileError where
  diagnostics : List Diagnostic
  deriving DecidableEq, Repr

namespace CompileError

def message : String := "Compilation failed."

def line (e : CompileError) : Option Int := e.diagnostics.head?.bind Diagnostic.line

def text (e : CompileError) : String :=
  if e.diagnostics.isEmpty then message else "\n".intercalate (e.diagnostics.map Diagnostic.text)

end CompileError

/-- An error that a script itself brings about while it is executed. -/
structure ScriptError where
  message : String
  line : Option Int
  deriving DecidableEq, Repr

/-- A script error as it is shown, with the line below the message. -/
def ScriptError.text (e : ScriptError) : String :=
  match e.line with
  | some line => s!"{e.message}\n[line {line}] in script"
  | none => e.message

end LoxBytecode
