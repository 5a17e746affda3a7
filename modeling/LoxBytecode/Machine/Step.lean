import LoxBytecode.Machine.Basic

/-!
# Single steps

One step reads an instruction and carries it out.  Operands are taken off the stack
before anything is computed, the right one first.  A step that does not end the
execution moves forward in the same chunk.
-/

namespace LoxBytecode

inductive Step (α : Type) where
  | next (m : Machine α)
  | returned (value : α) (m : Machine α)
  | failed (fault : Fault) (m : Machine α)

namespace Machine

variable {α : Type} [Number α]

/-- Carries out an operation whose byte has just been read. -/
def perform (m : Machine α) : Opcode → Step α
  | .constant =>
    match m.readConstant with
    | (.ok value, m) => .next (m.push value)
    | (.error fault, m) => .failed fault m
  | .operator op =>
    match m.pop with
    | (.error fault, m) => .failed fault m
    | (.ok right, m) =>
      match m.pop with
      | (.error fault, m) => .failed fault m
      | (.ok left, m) => .next (m.push (op.apply left right))
  | .negate =>
    match m.pop with
    | (.ok value, m) => .next (m.push (-value))
    | (.error fault, m) => .failed fault m
  | .ret =>
    match m.pop with
    | (.ok value, m) => .returned value m
    | (.error fault, m) => .failed fault m

def step (m : Machine α) : Step α :=
  match m.readByte with
  | (.error fault, m) => .failed fault m
  | (.ok byte, m) =>
    match Opcode.ofByte? byte with
    | some op => m.perform op
    | none => .failed (.violation (.unknownOpcode byte m.lastLine)) m

/-! ## Steps move forward -/

/-- `n` executes the same chunk as `m`, at the same offset or further on. -/
def Follows (m n : Machine α) : Prop := n.chunk = m.chunk ∧ m.ip ≤ n.ip

omit [Number α] in
theorem Follows.trans {l m n : Machine α} (h₁ : l.Follows m) (h₂ : m.Follows n) : l.Follows n :=
  ⟨h₂.1.trans h₁.1, Nat.le_trans h₁.2 h₂.2⟩

omit [Number α] in
theorem follows_pop (m : Machine α) : m.Follows m.pop.2 := by
  unfold pop
  split <;> exact ⟨rfl, Nat.le_refl _⟩

omit [Number α] in
theorem follows_readByte (m : Machine α) : m.Follows m.readByte.2 := by
  unfold readByte
  split
  · exact ⟨rfl, Nat.le_refl _⟩
  · split
    · exact ⟨rfl, Nat.le_refl _⟩
    · exact ⟨rfl, Nat.le_succ _⟩

omit [Number α] in
theorem follows_readConstant (m : Machine α) : m.Follows m.readConstant.2 := by
  have hread := m.follows_readByte
  unfold readConstant
  split
  · exact ⟨rfl, Nat.le_refl _⟩
  · split
    · simp_all
    · split <;> simp_all

theorem follows_of_perform {m n : Machine α} {op : Opcode} (h : m.perform op = .next n) :
    m.Follows n := by
  cases op with
  | constant =>
      have hread := m.follows_readConstant
      simp only [perform] at h
      split at h
      · cases h
        simp_all [Follows, push]
      · cases h
  | operator op =>
      have hfirst := m.follows_pop
      simp only [perform] at h
      split at h
      · cases h
      · rename_i right middle hright
        have hsecond := middle.follows_pop
        split at h
        · cases h
        · cases h
          rw [hright] at hfirst
          have := hfirst.trans hsecond
          simp_all [Follows, push]
  | negate =>
      have hpop := m.follows_pop
      simp only [perform] at h
      split at h
      · cases h
        simp_all [Follows, push]
      · cases h
  | ret =>
      simp only [perform] at h
      split at h <;> cases h

/-- Where there is a byte to be read, the operation that it stands for says what a step does. -/
theorem step_of_byte {m : Machine α} {byte : UInt8} (h : m.chunk.code[m.ip]? = some byte) :
    m.step =
      match Opcode.ofByte? byte with
      | some op => ({ m with ip := m.ip + 1 } : Machine α).perform op
      | none =>
        .failed (.violation (.unknownOpcode byte (m.chunk.lineAt? m.ip)))
          { m with ip := m.ip + 1 } := by
  simp only [step, readByte_of_code h]
  cases Opcode.ofByte? byte <;> rfl

/-- A step that does not fail has read a byte. -/
theorem exists_byte_of_step {m : Machine α} (h : ∀ fault n, m.step ≠ .failed fault n) :
    ∃ byte, m.chunk.code[m.ip]? = some byte := by
  cases hbyte : m.chunk.code[m.ip]? with
  | some byte => exact ⟨byte, rfl⟩
  | none =>
      obtain ⟨fault, hread⟩ := exists_fault_of_readByte hbyte
      exact absurd (by simp only [step, hread]) (h fault m)

/-- A step that does not end the execution leaves the chunk and moves forward. -/
theorem forward_of_step {m n : Machine α} (h : m.step = .next n) :
    n.chunk = m.chunk ∧ m.ip < n.ip := by
  obtain ⟨byte, hbyte⟩ := exists_byte_of_step fun fault l hfailed => by cases h.symm.trans hfailed
  rw [step_of_byte hbyte] at h
  split at h
  · have := follows_of_perform h
    exact ⟨this.1, this.2⟩
  · cases h

end Machine

end LoxBytecode
