import LoxBytecode.Bytecode.Chunk
import LoxBytecode.Diagnostic

/-!
# The stack machine

A machine has a chunk, the offset of the next byte in it, and a stack of numbers.
Each of its moves may fail, and the state it leaves then is part of its behaviour:
a number taken off the stack stays off, and a byte that was read counts as read.
Moves therefore return a state with every result, also with a fault.
-/

namespace LoxBytecode

/-- What code can do that compiled code never does. -/
inductive Violation where
  /-- The code ends without a return. -/
  | pastEnd
  /-- An instruction finds too few numbers on the stack. -/
  | underflow (line : Option Int)
  /-- A byte stands for no operation. -/
  | unknownOpcode (byte : UInt8) (line : Option Int)
  deriving DecidableEq, Repr

namespace Violation

def message : Violation → String
  | pastEnd => "Ran past the end of the chunk."
  | underflow _ => "Stack underflow."
  | unknownOpcode byte _ => s!"Unknown opcode {byte.toNat}"

/-- The source line of a violation, where one is known. -/
def line : Violation → Option Int
  | pastEnd => none
  | underflow line => line
  | unknownOpcode _ line => line

def text (v : Violation) : String := locatedText v.message v.line

end Violation

/-- Why an execution ends without a value. -/
inductive Fault where
  | violation (v : Violation)
  /-- Something is read that a part of the chunk does not have. -/
  | outOfRange (part : Chunk.Part)
  /-- Something is read in a part of a chunk, and there is no chunk yet. -/
  | noChunk (part : Chunk.Part)
  /-- The script itself ends in an error.  No instruction does that. -/
  | script (e : ScriptError)
  deriving DecidableEq, Repr

def Fault.text : Fault → String
  | violation v => v.text
  | outOfRange part => part.outOfRange
  | noChunk part => s!"'NoneType' object has no attribute '{part.name}'"
  | script e => e.text

/-- A stack machine.  It keeps its last chunk, offset and stack between executions. -/
structure Machine (α : Type) where
  /-- The chunk that was executed last; a new machine has none. -/
  chunk? : Option (Chunk α) := none
  /-- The offset of the next byte to be read. -/
  ip : Nat := 0
  /-- The numbers on the stack, the topmost first. -/
  stack : List α := []
  /-- The value of the last source text that was interpreted without an error. -/
  lastValue : Option α := none

namespace Machine

variable {α : Type}

/-- The chunk that was executed last.  Where there is none yet, it is empty. -/
def chunk (m : Machine α) : Chunk α := m.chunk?.getD {}

@[simp] theorem chunk_mk (m : Machine α) (ip : Nat) (stack : List α) (lastValue : Option α) :
    (mk m.chunk? ip stack lastValue).chunk = m.chunk := rfl

@[simp] theorem chunk_mk_some (chunk : Chunk α) (ip : Nat) (stack : List α) (lastValue : Option α) :
    (mk (some chunk) ip stack lastValue).chunk = chunk := rfl

/-- The line of the byte that was read last. -/
def lastLine (m : Machine α) : Option Int :=
  if m.ip = 0 then none else m.chunk.lineAt? (m.ip - 1)

def push (m : Machine α) (value : α) : Machine α := { m with stack := value :: m.stack }

def pop (m : Machine α) : Except Fault α × Machine α :=
  match m.stack with
  | [] => (.error (.violation (.underflow m.lastLine)), m)
  | value :: rest => (.ok value, { m with stack := rest })

def readByte (m : Machine α) : Except Fault UInt8 × Machine α :=
  match m.chunk? with
  | none => (.error (.noChunk .code), m)
  | some chunk =>
    match chunk.code[m.ip]? with
    | none => (.error (.outOfRange .code), m)
    | some byte => (.ok byte, { m with ip := m.ip + 1 })

/-- Reads the next byte of the code as the index of a constant. -/
def readConstant (m : Machine α) : Except Fault α × Machine α :=
  match m.chunk? with
  | none => (.error (.noChunk .constants), m)
  | some chunk =>
    match m.readByte with
    | (.error fault, m) => (.error fault, m)
    | (.ok index, m) =>
      match chunk.constants[index.toNat]? with
      | none => (.error (.outOfRange .constants), m)
      | some value => (.ok value, m)

/-! ## Reading where there is something to read -/

variable {m : Machine α} {byte : UInt8} {offset : Nat}

/-- Where there is any code, there is a chunk. -/
theorem chunk?_of_code (h : m.chunk.code[offset]? = some byte) : m.chunk? = some m.chunk := by
  unfold chunk at h ⊢
  cases hchunk : m.chunk? with
  | none => simp [hchunk] at h
  | some chunk => rfl

theorem readByte_of_code (h : m.chunk.code[m.ip]? = some byte) :
    m.readByte = (.ok byte, { m with ip := m.ip + 1 }) := by
  simp only [readByte, chunk?_of_code h, h]

/-- What is not there cannot be read, whether there is a chunk or not. -/
theorem exists_fault_of_readByte (h : m.chunk.code[m.ip]? = none) :
    ∃ fault, m.readByte = (.error fault, m) := by
  cases hchunk : m.chunk? with
  | none => exact ⟨.noChunk .code, by simp only [readByte, hchunk]⟩
  | some chunk =>
      have hcode : chunk.code[m.ip]? = none := by simpa [Machine.chunk, hchunk] using h
      exact ⟨.outOfRange .code, by simp only [readByte, hchunk, hcode]⟩

/-- Behind the last byte of some code there is nothing to be read. -/
theorem readByte_of_end (hloaded : m.chunk.code[offset]? = some byte)
    (hend : m.chunk.code[m.ip]? = none) : m.readByte = (.error (.outOfRange .code), m) := by
  simp only [readByte, chunk?_of_code hloaded, hend]

theorem readConstant_of_code (h : m.chunk.code[m.ip]? = some byte) :
    m.readConstant =
      match m.chunk.constants[byte.toNat]? with
      | none => (.error (.outOfRange .constants), { m with ip := m.ip + 1 })
      | some value => (.ok value, { m with ip := m.ip + 1 }) := by
  simp only [readConstant, chunk?_of_code h, readByte_of_code h]

theorem exists_fault_of_readConstant (h : m.chunk.code[m.ip]? = none) :
    ∃ fault, m.readConstant = (.error fault, m) := by
  obtain ⟨fault, hread⟩ := exists_fault_of_readByte h
  cases hchunk : m.chunk? with
  | none => exact ⟨.noChunk .constants, by simp only [readConstant, hchunk]⟩
  | some chunk => exact ⟨fault, by simp only [readConstant, hchunk, hread]⟩

theorem readConstant_of_end (hloaded : m.chunk.code[offset]? = some byte)
    (hend : m.chunk.code[m.ip]? = none) : m.readConstant = (.error (.outOfRange .code), m) := by
  simp only [readConstant, chunk?_of_code hloaded, readByte_of_end hloaded hend]

end Machine

end LoxBytecode
