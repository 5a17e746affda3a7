import LoxBytecode.Proofs.Bytecode.Walk
import LoxBytecode.Double.Text
import LoxBytecode.Proofs.Machine.Execution

/-!
# Executions follow the walk through their code

Where an execution goes and how it ends depends on no number: it is all told by the walk
through the code.  One step of the machine is matched with one instruction of the walk, and the
execution by induction over the bytes that are left.
-/

namespace LoxBytecode

/-- What is told of the way an execution ends: all but the value. -/
inductive Ending.Describes {α : Type} : Ending → Except Fault α → Prop
  | value (value : α) : Describes .value (.ok value)
  | violation (v : Violation) :
      Describes (.violation v.message v.line) (.error (.violation v))
  | outOfRange (part : Chunk.Part) :
      Describes (.outOfRange part.outOfRange) (.error (.outOfRange part))

namespace Machine

variable {α : Type} [Number α] {m n : Machine α}

/-! ## Counting instructions -/

/-- Without tracing, an execution ends with an outcome and a machine after a number of
instructions. -/
inductive Ends : Machine α → Nat → Except Fault α → Machine α → Prop
  | pastEnd {m : Machine α} : ¬m.ip < m.chunk.size → Ends m 0 (.error (.violation .pastEnd)) m
  | returned {m n : Machine α} {value : α} :
      m.ip < m.chunk.size → m.step = .returned value n → Ends m 1 (.ok value) n
  | failed {m n : Machine α} {fault : Fault} :
      m.ip < m.chunk.size → m.step = .failed fault n → Ends m 1 (.error fault) n
  | next {l m n : Machine α} {count : Nat} {outcome : Except Fault α} :
      l.ip < l.chunk.size → l.step = .next m → Ends m count outcome n →
      Ends l (count + 1) outcome n

theorem result_resume_untraced (h : m.ip < m.chunk.size) :
    (m.resume false).result =
      match m.step with
      | .next n => (n.resume false).result
      | .returned value n => (.ok value, n)
      | .failed fault n => (.error fault, n) := by
  rw [resume_of_lt false h]
  cases m.step <;> rfl

theorem Ends.result {count : Nat} {outcome : Except Fault α} (h : m.Ends count outcome n) :
    (m.resume false).result = (outcome, n) := by
  induction h with
  | pastEnd hend =>
      rw [resume_of_not_lt false hend]
      rfl
  | returned hinside hstep => rw [result_resume_untraced hinside, hstep]
  | failed hinside hstep => rw [result_resume_untraced hinside, hstep]
  | next hinside hstep _ ih =>
      rw [result_resume_untraced hinside, hstep]
      exact ih

/-! ## What one step does -/

section Step

variable {byte : UInt8} {line : Int}

theorem step_of_ofByte? {op : Opcode} (hbyte : m.chunk.code[m.ip]? = some byte)
    (hop : Opcode.ofByte? byte = some op) :
    m.step = ({ m with ip := m.ip + 1 } : Machine α).perform op := by
  rw [step_of_byte hbyte, hop]

theorem step_unknown (hbyte : m.chunk.code[m.ip]? = some byte)
    (hop : Opcode.ofByte? byte = none) (hline : m.chunk.lineAt? m.ip = some line) :
    m.step = .failed (.violation (.unknownOpcode byte line)) { m with ip := m.ip + 1 } := by
  rw [step_of_byte hbyte, hop, hline]

omit [Number α] in
theorem pop_of_nil (h : m.stack = []) :
    m.pop = (.error (.violation (.underflow m.lastLine)), { m with stack := [] }) := by
  obtain ⟨chunk, ip, stack, lastValue⟩ := m
  subst h
  rfl

/-- An operation with too few operands takes those that are there. -/
theorem perform_underflow {op : Opcode} (hstack : m.stack.length < op.arity) :
    m.perform op = .failed (.violation (.underflow m.lastLine)) { m with stack := [] } := by
  cases op with
  | constant => simp [Opcode.arity] at hstack
  | operator op =>
      obtain hnone | ⟨value, hone⟩ : m.stack = [] ∨ ∃ value, m.stack = [value] := by
        rw [← List.length_eq_zero_iff, ← List.length_eq_one_iff]
        simp only [Opcode.arity] at hstack
        omega
      · simp only [perform, pop_of_nil hnone]
      · simp [perform, pop, hone, lastLine]
  | negate =>
      have hnone : m.stack = [] := by simpa [Opcode.arity] using hstack
      simp only [perform, pop_of_nil hnone]
  | ret =>
      have hnone : m.stack = [] := by simpa [Opcode.arity] using hstack
      simp only [perform, pop_of_nil hnone]

theorem step_underflow {op : Opcode} (hbyte : m.chunk.code[m.ip]? = some byte)
    (hop : Opcode.ofByte? byte = some op) (hline : m.chunk.lineAt? m.ip = some line)
    (hstack : m.stack.length < op.arity) :
    m.step = .failed (.violation (.underflow line)) { m with ip := m.ip + 1, stack := [] } := by
  rw [step_of_ofByte? hbyte hop, perform_underflow (by exact hstack)]
  simp [lastLine, hline]

/-- An operation with enough operands replaces them by one number, unless it returns. -/
theorem exists_perform_next {op : Opcode} (hconstant : op ≠ .constant) (hret : op ≠ .ret)
    (hstack : op.arity ≤ m.stack.length) :
    ∃ stack, m.perform op = .next { m with stack } ∧
      stack.length = m.stack.length - op.arity + 1 := by
  cases op with
  | constant => exact absurd rfl hconstant
  | ret => exact absurd rfl hret
  | operator op =>
      obtain ⟨right, left, stack, heq⟩ : ∃ right left stack, m.stack = right :: left :: stack := by
        match hm : m.stack, hstack with
        | right :: left :: stack, _ => exact ⟨right, left, stack, rfl⟩
      refine ⟨op.apply left right :: stack, by simp [perform, pop, push, heq], ?_⟩
      simp [heq, Opcode.arity]
  | negate =>
      obtain ⟨value, stack, heq⟩ := List.exists_cons_of_length_pos hstack
      refine ⟨-value :: stack, by simp [perform, pop, push, heq], ?_⟩
      simp [heq, Opcode.arity]

theorem exists_perform_ret (hstack : 0 < m.stack.length) :
    ∃ value stack, m.perform .ret = .returned value { m with stack } ∧
      stack.length = m.stack.length - 1 := by
  obtain ⟨value, stack, heq⟩ := List.exists_cons_of_length_pos hstack
  exact ⟨value, stack, by simp [perform, pop, heq], by simp [heq]⟩

end Step

/-! ## The walk -/

/-- An execution ends as the walk through the bytes ahead does. -/
structure Walks (m : Machine α) (w : Walk) (outcome : Except Fault α) (n : Machine α) : Prop where
  ends : m.Ends w.instructions outcome n
  describes : w.ending.Describes outcome
  ip : n.ip = w.offset
  length_stack : n.stack.length = w.height

theorem Walks.next {l : Machine α} {w : Walk} {outcome : Except Fault α}
    (hinside : l.ip < l.chunk.size) (hstep : l.step = .next m) (h : m.Walks w outcome n) :
    l.Walks w.next outcome n :=
  ⟨.next hinside hstep h.ends, h.describes, h.ip, h.length_stack⟩

/-- An execution fails with the violation that its walk ends with. -/
theorem walks_violation (hinside : m.ip < m.chunk.size) {v : Violation}
    (hstep : m.step = .failed (.violation v) n) :
    m.Walks ⟨.violation v.message v.line, 1, n.ip, n.stack.length⟩ (.error (.violation v)) n :=
  ⟨.failed hinside hstep, .violation v, rfl, rfl⟩

theorem walks_outOfRange (hinside : m.ip < m.chunk.size) {part : Chunk.Part}
    (hstep : m.step = .failed (.outOfRange part) n) :
    m.Walks ⟨.outOfRange part.outOfRange, 1, n.ip, n.stack.length⟩ (.error (.outOfRange part)) n :=
  ⟨.failed hinside hstep, .outOfRange part, rfl, rfl⟩

omit [Number α] in
theorem lt_size_of_code {byte : UInt8} (h : m.chunk.code[m.ip]? = some byte) :
    m.ip < m.chunk.size :=
  (Array.getElem?_eq_some_iff.mp h).1

/-- The walk through the bytes ahead of a machine tells how its execution goes on. -/
theorem exists_walks {constants offset height : Nat} {entries : List (UInt8 × Int)}
    (hlines : m.chunk.lines.size = m.chunk.code.size)
    (hrest : m.chunk.annotated.drop offset = entries)
    (hconstants : m.chunk.constants.size = constants) (hip : m.ip = offset)
    (hheight : m.stack.length = height) :
    ∃ outcome n, m.Walks (walk constants offset height entries) outcome n := by
  fun_induction walk constants offset height entries generalizing m with
  | case1 offset height =>
      have hend := (Chunk.of_annotated_nil hlines hrest).2
      exact ⟨_, m, .pastEnd (hip ▸ hend), .violation .pastEnd, hip, hheight⟩
  | case2 offset height byte line rest hop =>
      subst hip hheight
      obtain ⟨hbyte, hline, -⟩ := Chunk.of_annotated hrest
      exact ⟨_, _, walks_violation (lt_size_of_code hbyte) (step_unknown hbyte hop hline)⟩
  | case3 offset height byte line hop =>
      -- the operand is missing
      subst hip hheight
      obtain ⟨hbyte, -, hbehind⟩ := Chunk.of_annotated hrest
      have hoperand := (Chunk.of_annotated_nil hlines hbehind).1
      have hstep : m.step = .failed (.outOfRange .code) { m with ip := m.ip + 1 } := by
        rw [step_of_ofByte? hbyte hop, perform,
          readConstant_of_end (m := { m with ip := m.ip + 1 }) hbyte hoperand]
      exact ⟨_, _, walks_outOfRange (lt_size_of_code hbyte) hstep⟩
  | case4 offset height byte line hop index operandLine rest hindex ih =>
      subst hip hheight
      obtain ⟨hbyte, -, hbehind⟩ := Chunk.of_annotated hrest
      obtain ⟨hoperand, -, hrest'⟩ := Chunk.of_annotated hbehind
      rw [← hconstants] at hindex
      have hstep : m.step = .next { m with
          ip := m.ip + 2, stack := m.chunk.constants[index.toNat] :: m.stack } := by
        rw [step_of_ofByte? hbyte hop, perform,
          readConstant_of_code (m := { m with ip := m.ip + 1 }) hoperand]
        simp [hindex, push]
      obtain ⟨outcome, n, hwalks⟩ := ih (m := { m with
        ip := m.ip + 2, stack := m.chunk.constants[index.toNat] :: m.stack })
        hlines hrest' hconstants rfl rfl
      exact ⟨outcome, n, hwalks.next (lt_size_of_code hbyte) hstep⟩
  | case5 offset height byte line hop index operandLine rest hindex =>
      subst hip hheight
      obtain ⟨hbyte, -, hbehind⟩ := Chunk.of_annotated hrest
      obtain ⟨hoperand, -, -⟩ := Chunk.of_annotated hbehind
      rw [← hconstants] at hindex
      have hstep : m.step = .failed (.outOfRange .constants) { m with ip := m.ip + 2 } := by
        rw [step_of_ofByte? hbyte hop, perform,
          readConstant_of_code (m := { m with ip := m.ip + 1 }) hoperand]
        simp [hindex]
      exact ⟨_, _, walks_outOfRange (lt_size_of_code hbyte) hstep⟩
  | case6 offset height byte line rest op hconstant hop hheight' =>
      subst hip hheight
      obtain ⟨hbyte, hline, -⟩ := Chunk.of_annotated hrest
      have hstep := step_underflow hbyte hop hline hheight'
      exact ⟨_, _, walks_violation (lt_size_of_code hbyte) hstep⟩
  | case7 offset height byte line rest hconstant hop hheight' =>
      subst hip hheight
      obtain ⟨hbyte, -, -⟩ := Chunk.of_annotated hrest
      obtain ⟨value, stack, hperform, hstack⟩ :=
        exists_perform_ret (m := { m with ip := m.ip + 1 }) (Nat.not_lt.mp hheight')
      have hstep := (step_of_ofByte? hbyte hop).trans hperform
      exact ⟨_, _, .returned (lt_size_of_code hbyte) hstep, .value value, rfl, hstack⟩
  | case8 offset height byte line rest op hconstant hop hheight' hret ih =>
      subst hip hheight
      obtain ⟨hbyte, -, hbehind⟩ := Chunk.of_annotated hrest
      obtain ⟨stack, hperform, hstack⟩ := exists_perform_next (m := { m with ip := m.ip + 1 })
        hconstant hret (Nat.not_lt.mp hheight')
      have hstep := (step_of_ofByte? hbyte hop).trans hperform
      obtain ⟨outcome, n, hwalks⟩ :=
        ih (m := { m with ip := m.ip + 1, stack }) hlines hbehind hconstants rfl hstack
      exact ⟨outcome, n, hwalks.next (lt_size_of_code hbyte) hstep⟩

theorem walks_run {chunk : Chunk α} (h : chunk.Built) (m : Machine α) :
    (m.load chunk).Walks chunk.walk (m.run false chunk).outcome (m.run false chunk).machine := by
  obtain ⟨outcome, n, hwalks⟩ : ∃ outcome n, (m.load chunk).Walks chunk.walk outcome n :=
    exists_walks h.size_lines rfl rfl rfl rfl
  obtain ⟨rfl, rfl⟩ := Prod.mk.inj hwalks.ends.result
  exact hwalks

/-- **What an execution does, told without its numbers.**  Every execution of a chunk comes to
an end after at most as many instructions as the chunk has bytes, and it ends as the walk
through the chunk does: with a value or with the violation that the walk tells, at the offset
and with the height of the stack that the walk comes to.  Only the bytes, their lines and the
number of constants matter to the walk, so chunks that agree in these are executed alike. -/
theorem run_follows_walk {chunk : Chunk α} (h : chunk.Built) (m : Machine α) :
    chunk.walk.instructions ≤ chunk.size ∧
      (m.load chunk).Walks chunk.walk (m.run false chunk).outcome (m.run false chunk).machine ∧
      ∀ {β : Type} [Number β] {other : Chunk β} (k : Machine β), other.Built →
        other.code = chunk.code → other.lines = chunk.lines →
        other.constants.size = chunk.constants.size →
        (k.load other).Walks chunk.walk (k.run false other).outcome (k.run false other).machine := by
  refine ⟨?_, walks_run h m, fun {β _ other} k hother hcode hlines hconstants => ?_⟩
  · rw [← Chunk.length_annotated h.size_lines]
    exact instructions_walk_le _ _ _ _
  · have hwalk : other.walk = chunk.walk := by
      simp only [Chunk.walk, Chunk.annotated, hcode, hlines, hconstants]
    rw [← hwalk]
    exact walks_run hother k

/-- Where the left operand of an addition is missing, the right one is gone as well, and what
it was makes no difference. -/
theorem run_addition_of_one_operand :
    let one : Chunk Double := { code := #[0, 0, 1], lines := #[1, 1, 2], constants := #[⟨0⟩] }
    let nan : Chunk Double := { one with constants := #[⟨0x7ff8000000000000⟩] }
    let w : Walk := ⟨.violation "Stack underflow." (some 2), 2, 3, 0⟩
    let m : Machine Double := { stack := [⟨0⟩] }
    one.Built ∧ nan.Built ∧ one.walk = w ∧ w.instructions ≤ one.size ∧
      (m.load one).Walks w (m.run false one).outcome (m.run false one).machine ∧
      (m.load nan).Walks w (m.run false nan).outcome (m.run false nan).machine := by
  intro one nan w m
  have hone : one.Built := .write 1 2 (.write 0 1 (.write 0 1 (.addConstant (Double.mk 0) .empty)))
  have hnan : nan.Built :=
    .write 1 2 (.write 0 1 (.write 0 1 (.addConstant (Double.mk 0x7ff8000000000000) .empty)))
  have hwalk : one.walk = w := by decide +kernel
  obtain ⟨hcount, hwalks, halike⟩ := run_follows_walk hone m
  rw [hwalk] at hcount hwalks
  have hother := halike m hnan rfl rfl rfl
  rw [hwalk] at hother
  exact ⟨hone, hnan, hwalk, hcount, hwalks, hother⟩

end Machine

end LoxBytecode
