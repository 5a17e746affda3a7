import LoxBytecode.Proofs.Machine.Execution

/-!
# The memory of a machine

Between executions a machine remembers the value of the last source text.  No step reads that
memory and no step changes it, so an execution shows the same events and comes to the same end
whatever is remembered, and leaves it as it was.
-/

namespace LoxBytecode

/-- A step with the machine that it leads to replaced. -/
def Step.map {α : Type} (f : Machine α → Machine α) : Step α → Step α
  | .next m => .next (f m)
  | .returned value m => .returned value (f m)
  | .failed fault m => .failed fault (f m)

namespace Machine

variable {α : Type}

/-- The same machine with another memory. -/
def remembering (m : Machine α) (memory : Option α) : Machine α := { m with lastValue := memory }

@[simp] theorem remembering_lastValue (m : Machine α) : m.remembering m.lastValue = m := rfl

@[simp] theorem load_remembering (m : Machine α) (memory : Option α) (chunk : Chunk α) :
    (m.remembering memory).load chunk = (m.load chunk).remembering memory := rfl

/-! ## Steps -/

theorem pop_remembering (m : Machine α) (memory : Option α) :
    (m.remembering memory).pop = (m.pop.1, m.pop.2.remembering memory) := by
  unfold pop
  cases hstack : m.stack with
  | nil => simp [remembering, hstack, lastLine]
  | cons value rest => simp [remembering, hstack]

theorem readByte_remembering (m : Machine α) (memory : Option α) :
    (m.remembering memory).readByte = (m.readByte.1, m.readByte.2.remembering memory) := by
  obtain ⟨chunk?, ip, stack, lastValue⟩ := m
  cases chunk? with
  | none => rfl
  | some chunk =>
      simp only [readByte, remembering]
      cases chunk.code[ip]? <;> rfl

theorem readConstant_remembering (m : Machine α) (memory : Option α) :
    (m.remembering memory).readConstant =
      (m.readConstant.1, m.readConstant.2.remembering memory) := by
  have hchunk : (m.remembering memory).chunk? = m.chunk? := rfl
  unfold readConstant
  rw [hchunk, readByte_remembering]
  cases m.chunk? with
  | none => rfl
  | some chunk =>
      obtain ⟨result, n⟩ := m.readByte
      cases result with
      | error fault => rfl
      | ok index =>
          dsimp only
          cases chunk.constants[index.toNat]? <;> rfl

variable [Number α]

theorem perform_remembering (m : Machine α) (memory : Option α) (op : Opcode) :
    (m.remembering memory).perform op = (m.perform op).map (·.remembering memory) := by
  cases op with
  | constant =>
      simp only [perform, readConstant_remembering]
      obtain ⟨result, n⟩ := m.readConstant
      cases result <;> rfl
  | operator op =>
      simp only [perform, pop_remembering]
      obtain ⟨result, n⟩ := m.pop
      cases result with
      | error fault => rfl
      | ok right =>
          simp only [pop_remembering]
          obtain ⟨result, n⟩ := n.pop
          cases result <;> rfl
  | negate =>
      simp only [perform, pop_remembering]
      obtain ⟨result, n⟩ := m.pop
      cases result <;> rfl
  | ret =>
      simp only [perform, pop_remembering]
      obtain ⟨result, n⟩ := m.pop
      cases result <;> rfl

theorem step_remembering (m : Machine α) (memory : Option α) :
    (m.remembering memory).step = m.step.map (·.remembering memory) := by
  unfold step
  rw [readByte_remembering]
  obtain ⟨result, n⟩ := m.readByte
  cases result with
  | error fault => rfl
  | ok byte =>
      cases hop : Opcode.ofByte? byte with
      | none => simp only [hop]; rfl
      | some op => simp only [hop, perform_remembering]

/-! ## Executions -/

theorem resume_remembering (tracing : Bool) (m : Machine α) (memory : Option α) :
    (m.remembering memory).resume tracing =
      { m.resume tracing with machine := (m.resume tracing).machine.remembering memory } := by
  induction m using execution_induction with
  | past m hend =>
      have hend' : ¬(m.remembering memory).ip < (m.remembering memory).chunk.size := hend
      rw [resume_of_not_lt tracing hend, resume_of_not_lt tracing hend']
  | inside m hinside ih =>
      have hinside' : (m.remembering memory).ip < (m.remembering memory).chunk.size := hinside
      have htrace : (m.remembering memory).trace = m.trace := rfl
      rw [resume_of_lt tracing hinside, resume_of_lt tracing hinside', htrace, step_remembering]
      dsimp only
      generalize (if tracing then m.trace else ([], none)) = shown
      split
      · rfl
      · cases hstep : m.step with
        | next n => simp only [Step.map, Step.execution, ih n hstep]
        | returned value n => rfl
        | failed fault n => rfl

/-- An execution leaves the memory alone. -/
theorem lastValue_resume (tracing : Bool) (m : Machine α) :
    (m.resume tracing).machine.lastValue = m.lastValue := by
  have hsame := resume_remembering tracing m m.lastValue
  rw [remembering_lastValue] at hsame
  rw [hsame]
  rfl

/-- An execution goes as one by a new machine does. -/
theorem run_eq_run_new (tracing : Bool) (chunk : Chunk α) (m : Machine α) :
    m.run tracing chunk =
      { ({} : Machine α).run tracing chunk with
        machine := (({} : Machine α).run tracing chunk).machine.remembering m.lastValue } := by
  have hload : m.load chunk = (({} : Machine α).load chunk).remembering m.lastValue := rfl
  simp only [run, hload, resume_remembering]

end Machine

end LoxBytecode
