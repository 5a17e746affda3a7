import LoxBytecode.Bytecode.Listing
import LoxBytecode.Event
import LoxBytecode.Machine.Step

/-!
# Executions

An execution steps from the beginning of a chunk until something is returned or a
fault arises.  With tracing on, every step is preceded by two lines, which show the
stack and the instruction; an instruction that cannot be listed ends the execution
there.  Running past the end of the code is noticed before anything is shown.
-/

namespace LoxBytecode

structure Execution (α : Type) where
  events : List Event
  outcome : Except Fault α
  machine : Machine α

namespace Machine

variable {α : Type} [Number α]

/-- The line of a trace that shows the stack, its bottom first. -/
def stackLine (m : Machine α) : String :=
  let slots := m.stack.reverse.map fun value => s!"[ {Number.render value} ]"
  "          " ++ String.join slots

/-- What a trace shows before a step, and what it lacks if the instruction cannot be listed. -/
def trace (m : Machine α) : List Event × Option Chunk.Part :=
  match m.chunk.instructionAt m.ip with
  | .ok (text, _) => ([.outputLine m.stackLine, .outputLine text], none)
  | .error part => ([.outputLine m.stackLine], some part)

/-- Steps on to the end of the execution. -/
def resume (tracing : Bool) (m : Machine α) : Execution α :=
  if m.ip < m.chunk.size then
    let (shown, lacking) := if tracing then m.trace else ([], none)
    match lacking with
    | some part => ⟨shown, .error (.outOfRange part), m⟩
    | none =>
      match _h : m.step with
      | .next n =>
        let later := resume tracing n
        { later with events := shown ++ later.events }
      | .returned value n => ⟨shown ++ [.debug s!"returned {Number.render value}"], .ok value, n⟩
      | .failed fault n => ⟨shown, .error fault, n⟩
  else ⟨[], .error (.violation .pastEnd), m⟩
termination_by m.chunk.size - m.ip
decreasing_by
  obtain ⟨hchunk, hip⟩ := forward_of_step _h
  rw [hchunk]
  omega

/-- The machine at the beginning of a chunk. -/
def load (m : Machine α) (chunk : Chunk α) : Machine α :=
  { m with chunk? := some chunk, ip := 0, stack := [] }

omit [Number α] in
@[simp] theorem chunk_load (m : Machine α) (chunk : Chunk α) : (m.load chunk).chunk = chunk := rfl

/-- Executes a chunk from its beginning, on an empty stack. -/
def run (tracing : Bool) (chunk : Chunk α) (m : Machine α) : Execution α :=
  let e := (m.load chunk).resume tracing
  { e with events := .debug s!"running chunk of {chunk.size} bytes" :: e.events }

end Machine

end LoxBytecode
