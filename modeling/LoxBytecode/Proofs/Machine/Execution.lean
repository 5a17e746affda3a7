import LoxBytecode.Machine.Run
import LoxBytecode.Proofs.Bytecode.Listing
import Mathlib.Logic.Relation

/-!
# Executions step by step

An execution that is traced shows every instruction before it carries it out, and an
instruction that cannot be listed ends it.  `Proceeds` is therefore a step at an
instruction that can be listed; whether such steps are traced makes no difference to how
an execution ends.  For each operation there is one lemma that says what it takes for its
step and where the step leads.
-/

namespace LoxBytecode

/-- How an execution ended, and the machine it left. -/
def Execution.result {α : Type} (e : Execution α) : Except Fault α × Machine α :=
  (e.outcome, e.machine)

/-- How an execution goes on with a step, given what is shown before the step. -/
def Step.execution {α : Type} [Number α] (shown : List Event) (tracing : Bool) :
    Step α → Execution α
  | .next m => { m.resume tracing with events := shown ++ (m.resume tracing).events }
  | .returned value m => ⟨shown ++ [.debug s!"returned {Number.render value}"], .ok value, m⟩
  | .failed fault m => ⟨shown, .error fault, m⟩

namespace Machine

variable {α : Type} [Number α]

/-! ## Steps -/

/-- One step of an execution, at an instruction that can be listed. -/
structure Proceeds (m n : Machine α) : Prop where
  step : m.step = .next n
  listed : (m.chunk.instructionAt? m.ip).isSome

/-- Some steps of an execution, at instructions that can be listed. -/
abbrev Leads : Machine α → Machine α → Prop := Relation.ReflTransGen Proceeds

variable {m n : Machine α} {tracing : Bool}

theorem resume_of_lt (tracing : Bool) (h : m.ip < m.chunk.size) :
    m.resume tracing =
      let shown := if tracing then m.trace else ([], none)
      match shown.2 with
      | some part => ⟨shown.1, .error (.outOfRange part), m⟩
      | none => m.step.execution shown.1 tracing := by
  rw [resume, if_pos h]
  dsimp only
  generalize (if tracing then m.trace else ([], none)) = shown
  obtain ⟨shown, lacking⟩ := shown
  cases lacking with
  | some part => rfl
  | none =>
      -- the two matches are over the same step, but the one in `resume` also keeps that equation
      dsimp only
      split <;> rename_i hstep <;> rw [hstep] <;> rfl

theorem resume_of_not_lt (tracing : Bool) (h : ¬m.ip < m.chunk.size) :
    m.resume tracing = ⟨[], .error (.violation .pastEnd), m⟩ := by
  rw [resume, if_neg h]

/-- Induction along an execution: a machine inside its code is followed by the one that its step
leads to, if it leads on at all. -/
@[elab_as_elim]
theorem execution_induction {motive : Machine α → Prop}
    (past : ∀ m, ¬m.ip < m.chunk.size → motive m)
    (inside : ∀ m, m.ip < m.chunk.size → (∀ n, m.step = .next n → motive n) → motive m)
    (m : Machine α) : motive m := by
  -- every step leaves less of the code
  induction hleft : m.chunk.size - m.ip using Nat.strongRecOn generalizing m with
  | ind left ih =>
      by_cases hinside : m.ip < m.chunk.size
      · refine inside m hinside fun n hstep => ?_
        obtain ⟨hchunk, hforward⟩ := forward_of_step hstep
        exact ih (n.chunk.size - n.ip) (by rw [hchunk]; omega) n rfl
      · exact past m hinside

theorem trace_of_listed (tracing : Bool) (h : (m.chunk.instructionAt? m.ip).isSome) :
    ∃ shown, (if tracing then m.trace else ([], none)) = (shown, none) := by
  obtain ⟨⟨text, next⟩, hsome⟩ := Option.isSome_iff_exists.mp h
  have hlisting := Chunk.instructionAt?_eq_some_iff.mp hsome
  cases tracing with
  | false => exact ⟨[], rfl⟩
  | true =>
      refine ⟨[.outputLine m.stackLine, .outputLine text], ?_⟩
      simp [trace, hlisting]

/-- At an instruction that can be listed, the step alone says how an execution goes on. -/
theorem result_resume (tracing : Bool) (h : (m.chunk.instructionAt? m.ip).isSome) :
    (m.resume tracing).result =
      match m.step with
      | .next n => (n.resume tracing).result
      | .returned value n => (.ok value, n)
      | .failed fault n => (.error fault, n) := by
  obtain ⟨shown, hshown⟩ := trace_of_listed tracing h
  rw [resume_of_lt tracing (Chunk.lt_size_of_listed h), hshown]
  cases m.step <;> rfl

theorem Proceeds.result (h : m.Proceeds n) :
    (m.resume tracing).result = (n.resume tracing).result := by
  rw [result_resume tracing h.listed, h.step]

/-- Steps at instructions that can be listed do not change how an execution ends. -/
theorem Leads.result (h : m.Leads n) : (m.resume tracing).result = (n.resume tracing).result := by
  induction h with
  | refl => rfl
  | tail _ hstep ih => exact ih.trans hstep.result

/-! ## The step of each operation -/

theorem step_of_code {op : Opcode} (hop : m.chunk.code[m.ip]? = some op.byte) :
    m.step = ({ m with ip := m.ip + 1 } : Machine α).perform op := by
  rw [step_of_byte hop, Opcode.ofByte?_byte]

variable {stack : List α}

theorem proceeds_constant {index : UInt8} {value : α}
    (hlines : m.chunk.lines.size = m.chunk.code.size)
    (hop : m.chunk.code[m.ip]? = some Opcode.constant.byte)
    (hindex : m.chunk.code[m.ip + 1]? = some index)
    (hvalue : m.chunk.constants[index.toNat]? = some value) :
    m.Proceeds { m with ip := m.ip + 2, stack := value :: m.stack } := by
  constructor
  · rw [step_of_code hop]
    rw [perform, readConstant_of_code (m := { m with ip := m.ip + 1 }) hindex]
    simp [hvalue, push]
  · exact Chunk.listed_of_code hlines hop fun _ => by simp [hindex]

theorem proceeds_operator {op : Operator} {left right : α}
    (hlines : m.chunk.lines.size = m.chunk.code.size)
    (hop : m.chunk.code[m.ip]? = some (Opcode.operator op).byte)
    (hstack : m.stack = right :: left :: stack) :
    m.Proceeds { m with ip := m.ip + 1, stack := op.apply left right :: stack } := by
  constructor
  · rw [step_of_code hop]
    simp [perform, pop, hstack, push]
  · exact Chunk.listed_of_code hlines hop (by rintro ⟨⟩)

theorem proceeds_negate {value : α} (hlines : m.chunk.lines.size = m.chunk.code.size)
    (hop : m.chunk.code[m.ip]? = some Opcode.negate.byte) (hstack : m.stack = value :: stack) :
    m.Proceeds { m with ip := m.ip + 1, stack := -value :: stack } := by
  constructor
  · rw [step_of_code hop]
    simp [perform, pop, hstack, push]
  · exact Chunk.listed_of_code hlines hop (by rintro ⟨⟩)

/-- A return ends the execution with the topmost number, which it takes off the stack. -/
theorem result_ret {value : α} (hlines : m.chunk.lines.size = m.chunk.code.size)
    (hop : m.chunk.code[m.ip]? = some Opcode.ret.byte) (hstack : m.stack = value :: stack) :
    (m.resume tracing).result = (.ok value, { m with ip := m.ip + 1, stack := stack }) := by
  have hstep : m.step = .returned value { m with ip := m.ip + 1, stack := stack } := by
    rw [step_of_code hop]
    simp [perform, pop, hstack]
  have hlisted := Chunk.listed_of_code hlines hop (by rintro ⟨⟩)
  rw [result_resume tracing hlisted, hstep]

end Machine

end LoxBytecode
