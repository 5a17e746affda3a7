import LoxBytecode.Compilation.Expression
import LoxBytecode.Machine.Run

/-!
# Interpreting source text

To interpret a source text is to compile it and, if that succeeds, to execute the
code and to print its value.  A text that does not compile leaves the machine alone.
-/

namespace LoxBytecode

/-- How the interpretation of a source text ended. -/
inductive Outcome where
  | ok
  | compileError
  | runtimeError
  deriving DecidableEq, Repr

namespace Outcome

def all : List Outcome := [ok, compileError, runtimeError]

def name : Outcome → String
  | ok => "OK"
  | compileError => "COMPILE_ERROR"
  | runtimeError => "RUNTIME_ERROR"

def code : Outcome → Nat
  | ok => 0
  | compileError => 1
  | runtimeError => 2

/-- The status that a program ends with after an outcome: data that is no
expression, and an internal error, have statuses of their own. -/
def exitStatus : Outcome → Nat
  | ok => 0
  | compileError => 65
  | runtimeError => 70

end Outcome

/-- What is shown beside a result: the code, and the execution step by step. -/
structure Settings where
  tracing : Bool := false
  dumping : Bool := false
  deriving DecidableEq, Repr

structure Interpretation (α : Type) where
  events : List Event
  result : Except Fault Outcome
  machine : Machine α

namespace Machine

variable {α : Type} [Number α]

/-- Interprets a source text, its code being executed by `execute`. -/
def interpretWith (execute : Chunk α → Machine α → Execution α) (dumping : Bool)
    (source : List Char) (m : Machine α) : Interpretation α :=
  match compile source with
  | .error e =>
    let found := e.diagnostics.map fun d => Event.debug s!"compile error: {d.text}"
    let shown := e.diagnostics.map fun d => Event.complaintLine d.text
    ⟨found ++ shown, .ok .compileError, m⟩
  | .ok chunk =>
    let compiled :=
      Event.debug s!"compiled {chunk.size} bytes, {chunk.constants.size} constants"
    match if dumping then (chunk.disassemble "code").map ([Event.outputLine ·]) else .ok [] with
    | .error part => ⟨[compiled], .error (.outOfRange part), m⟩
    | .ok dump =>
      let e := execute chunk m
      let events := compiled :: dump ++ e.events
      match e.outcome with
      | .ok value =>
        ⟨events ++ [.outputLine (Number.render value)], .ok .ok,
          { e.machine with lastValue := some value }⟩
      | .error (.script s) => ⟨events ++ [.complaintLine s.text], .ok .runtimeError, e.machine⟩
      | .error fault => ⟨events, .error fault, e.machine⟩

def interpret (settings : Settings) (source : List Char) (m : Machine α) : Interpretation α :=
  m.interpretWith (run settings.tracing) settings.dumping source

/-- The execution that ends in a script error before the first step. -/
def refuse (e : ScriptError) (_chunk : Chunk α) (m : Machine α) : Execution α :=
  ⟨[], .error (.script e), m⟩

end Machine

/-- The value of a source text: compiled, and executed by a new machine. -/
def evaluate {α : Type} [Number α] (source : List Char) :
    Except CompileError (Except Fault α) :=
  (compile source).map fun chunk => (({} : Machine α).run false chunk).outcome

end LoxBytecode
