import LoxBytecode.Proofs.Bytecode.Sweep
import LoxBytecode.Proofs.Machine.Trace
import LoxBytecode.Proofs.Machine.Walk

/-!
# Tracing leaves executions alone

A traced execution lists every instruction before it is carried out.  Whatever can be listed is
then carried out as it is without tracing, and whatever is not cut off can be listed.  So there is
one place where the two can differ: at a load that is cut off, a traced execution ends in front of
the load, which cannot be listed, and an untraced one behind it, where its operand is missing.

Where an execution comes by no such load, tracing makes no difference to how it ends
(`result_resume_whole`).  Where it does come by one, it ends there (`result_resume_cutOff`).
-/

namespace LoxBytecode

namespace Machine

variable {α : Type} [Number α] {m k : Machine α}

/-! ## Instructions that are fetched -/

theorem self_mem_fetches (hinside : m.ip < m.chunk.size) : m ∈ m.fetches := by
  rw [fetches, if_pos hinside]
  exact List.mem_cons_self

/-- Behind the first instruction the same ones are fetched. -/
theorem mem_fetches_of_next {n : Machine α} (hinside : m.ip < m.chunk.size)
    (hstep : m.step = .next n) (hk : k ∈ n.fetches) : k ∈ m.fetches := by
  rw [fetches_of_next hinside hstep]
  exact List.mem_cons_of_mem _ hk

theorem eq_of_mem_fetches_last (hinside : m.ip < m.chunk.size) (hlast : ∀ n, m.step ≠ .next n)
    (hk : k ∈ m.fetches) : k = m := by
  rw [fetches_of_last hinside hlast] at hk
  exact List.mem_singleton.mp hk

/-! ## Loads that are cut off -/

theorem step_of_cutOff (h : m.chunk.CutOff m.ip) :
    m.step = .failed (.outOfRange .code) { m with ip := m.ip + 1 } := by
  have hoperand := Chunk.getElem?_code_of_cutOff h
  rw [step_of_code h.1, perform, readConstant_of_end (m := { m with ip := m.ip + 1 }) h.1 hoperand]

/-- How an execution ends at a load that is cut off. -/
def cutOffResult (tracing : Bool) (m : Machine α) : Except Fault α × Machine α :=
  (.error (.outOfRange .code), if tracing then m else { m with ip := m.ip + 1 })

theorem result_of_cutOff (hlines : m.chunk.lines.size = m.chunk.code.size)
    (h : m.chunk.CutOff m.ip) (tracing : Bool) :
    (m.resume tracing).result = cutOffResult tracing m := by
  have hinside : m.ip < m.chunk.size := lt_size_of_code h.1
  cases tracing with
  | true =>
      rw [resume_of_lt true hinside, if_pos rfl, trace, Chunk.instructionAt_of_cutOff hlines h]
      rfl
  | false =>
      rw [result_resume_untraced hinside, step_of_cutOff h]
      rfl

/-- An execution that comes by a load that is cut off ends there. -/
theorem result_resume_cutOff (hlines : m.chunk.lines.size = m.chunk.code.size)
    (hk : k ∈ m.fetches) (hcut : m.chunk.CutOff k.ip) (tracing : Bool) :
    (m.resume tracing).result = cutOffResult tracing k := by
  induction m using execution_induction with
  | past m hpast =>
      rw [fetches_of_not_lt hpast] at hk
      cases hk
  | inside m hinside ih =>
      by_cases hhere : m.chunk.CutOff m.ip
      · have hlast : ∀ n, m.step ≠ .next n := fun n hnext => by
          cases (step_of_cutOff hhere).symm.trans hnext
        rw [eq_of_mem_fetches_last hinside hlast hk]
        exact result_of_cutOff hlines hhere tracing
      · obtain ⟨piece, hentry⟩ := Chunk.exists_instructionAt? hlines hinside hhere
        rw [result_resume tracing (by rw [hentry]; rfl)]
        cases hstep : m.step with
        | next n =>
            have hchunk := (forward_of_step hstep).1
            rw [fetches_of_next hinside hstep] at hk
            rcases List.mem_cons.mp hk with rfl | hlater
            · exact absurd hcut hhere
            · rw [← hchunk] at hlines hcut
              exact ih n hstep hlines hlater hcut
        | returned value n | failed fault n =>
            have hlast : ∀ l, m.step ≠ .next l := fun l hnext => by
              cases hstep.symm.trans hnext
            rw [eq_of_mem_fetches_last hinside hlast hk] at hcut
            exact absurd hcut hhere

/-- An execution that comes by no such load ends in the same way with tracing and without. -/
theorem result_resume_whole (hlines : m.chunk.lines.size = m.chunk.code.size)
    (hwhole : ∀ k ∈ m.fetches, ¬m.chunk.CutOff k.ip) :
    (m.resume true).result = (m.resume false).result := by
  induction m using execution_induction with
  | past m hpast => rw [resume_of_not_lt true hpast, resume_of_not_lt false hpast]
  | inside m hinside ih =>
      have hhere : ¬m.chunk.CutOff m.ip := hwhole m (self_mem_fetches hinside)
      obtain ⟨piece, hentry⟩ := Chunk.exists_instructionAt? hlines hinside hhere
      have hlisted : (m.chunk.instructionAt? m.ip).isSome := by rw [hentry]; rfl
      rw [result_resume true hlisted, result_resume false hlisted]
      cases hstep : m.step with
      | next n =>
          have hchunk := (forward_of_step hstep).1
          rw [← hchunk] at hlines
          refine ih n hstep hlines fun k hk => ?_
          rw [hchunk]
          exact hwhole k (mem_fetches_of_next hinside hstep hk)
      | returned value n | failed fault n => rfl

end Machine

variable {α : Type} [Number α]

/-- **Tracing does not disturb executions.**  Every execution of a chunk that is built ends with
tracing as it does without, with the same value or the same fault and with the same stack.  The
machines that it leaves are the same as well, unless the execution comes by a load that is cut
off: then it ends there, in front of the load with tracing and behind it without. -/
theorem run_traced {chunk : Chunk α} (h : chunk.Built) (m : Machine α) :
    let traced := m.run true chunk
    let untraced := m.run false chunk
    traced.outcome = untraced.outcome ∧ traced.machine.stack = untraced.machine.stack ∧
      ((∀ k ∈ (m.load chunk).fetches, ¬chunk.CutOff k.ip) →
        traced.machine = untraced.machine) ∧
      ∀ k ∈ (m.load chunk).fetches, chunk.CutOff k.ip →
        untraced.outcome = .error (.outOfRange .code) ∧ traced.machine = k ∧
          untraced.machine = { k with ip := k.ip + 1 } := by
  intro traced untraced
  have hlines : (m.load chunk).chunk.lines.size = (m.load chunk).chunk.code.size := h.size_lines
  have hends : ∀ k ∈ (m.load chunk).fetches, chunk.CutOff k.ip →
      traced.outcome = .error (.outOfRange .code) ∧ untraced.outcome = .error (.outOfRange .code) ∧
        traced.machine = k ∧ untraced.machine = { k with ip := k.ip + 1 } := by
    intro k hk hload
    have hresult := Machine.result_resume_cutOff hlines hk hload
    obtain ⟨htraced, hmachine⟩ := Prod.mk.inj (hresult true)
    obtain ⟨huntraced, hmachine'⟩ := Prod.mk.inj (hresult false)
    exact ⟨htraced, huntraced, hmachine, hmachine'⟩
  by_cases hmet : ∃ k ∈ (m.load chunk).fetches, chunk.CutOff k.ip
  · obtain ⟨k, hk, hload⟩ := hmet
    obtain ⟨htraced, huntraced, hmachine, hmachine'⟩ := hends k hk hload
    refine ⟨htraced.trans huntraced.symm, ?_, fun hnone => absurd hload (hnone k hk), ?_⟩
    · rw [hmachine, hmachine']
    · intro k hk hload
      exact (hends k hk hload).2
  · have hnone : ∀ k ∈ (m.load chunk).fetches, ¬chunk.CutOff k.ip :=
      fun k hk hload => hmet ⟨k, hk, hload⟩
    have hsame : traced.result = untraced.result := Machine.result_resume_whole hlines hnone
    obtain ⟨houtcome, hmachine⟩ := Prod.mk.inj hsame
    refine ⟨houtcome, congrArg Machine.stack hmachine, fun _ => hmachine, ?_⟩
    intro k hk hload
    exact absurd hload (hnone k hk)

/-- The second load is cut off.  The number that the first one has put on the stack stays there. -/
theorem run_traced_second_load :
    let chunk : Chunk Double := { code := #[0, 0, 0], lines := #[1, 1, 2], constants := #[⟨0⟩] }
    let m : Machine Double := { ip := 7, lastValue := some ⟨0⟩ }
    let k : Machine Double := { m.load chunk with ip := 2, stack := [⟨0⟩] }
    chunk.Built ∧ k ∈ (m.load chunk).fetches ∧ chunk.CutOff k.ip ∧
      (m.run true chunk).outcome = (m.run false chunk).outcome ∧
      (m.run false chunk).outcome = .error (.outOfRange .code) ∧ (m.run true chunk).machine = k ∧
      (m.run false chunk).machine = { k with ip := 3 } := by
  intro chunk m k
  have hbuilt : chunk.Built :=
    .write 0 2 (.write 0 1 (.write 0 1 (.addConstant (Double.mk 0) .empty)))
  have hstep : (m.load chunk).step = .next k := rfl
  have hk : k ∈ (m.load chunk).fetches :=
    Machine.mem_fetches_of_next (by decide) hstep (Machine.self_mem_fetches (by decide))
  have hcut : chunk.CutOff k.ip := ⟨rfl, rfl⟩
  obtain ⟨hsame, -, -, hload⟩ := run_traced hbuilt m
  obtain ⟨houtcome, htraced, huntraced⟩ := hload k hk hcut
  exact ⟨hbuilt, hk, hcut, hsame, houtcome, htraced, huntraced⟩

end LoxBytecode
