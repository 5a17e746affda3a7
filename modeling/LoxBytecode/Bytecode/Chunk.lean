import LoxBytecode.Bytecode.Opcode

/-!
# Chunks

A chunk is compiled code: its bytes, the source line of every byte, and the
numbers that the code refers to.  A chunk only ever grows.  One that is built
with `write` and `addConstant` has a line for every byte; a chunk put together
otherwise need not have.
-/

namespace LoxBytecode

structure Chunk (α : Type) where
  code : Array UInt8 := #[]
  lines : Array Int := #[]
  constants : Array α := #[]

namespace Chunk

/-- The parts of a chunk, each of which is read by position. -/
inductive Part where
  | code
  | lines
  | constants
  deriving DecidableEq, Repr

namespace Part

def name : Part → String
  | code => "code"
  | lines => "lines"
  | constants => "constants"

/-- How a position that a part does not have is worded.  The code is an array of bytes. -/
def outOfRange : Part → String
  | code => "bytearray index out of range"
  | lines | constants => "list index out of range"

end Part

variable {α : Type}

/-- The number of constants that a one-byte index can tell apart. -/
def maxConstants : Nat := 256

def size (c : Chunk α) : Nat := c.code.size

/-- Appends a byte of code that belongs to a line. -/
def write (c : Chunk α) (byte : UInt8) (line : Int) : Chunk α :=
  { c with code := c.code.push byte, lines := c.lines.push line }

/-- Appends a number as a byte of code.  Only numbers from 0 to 255 are bytes. -/
def write? (c : Chunk α) (number : Int) (line : Int) : Option (Chunk α) :=
  if 0 ≤ number ∧ number < 256 then some (c.write number.toNat.toUInt8 line) else none

/-- Adds a number to the pool.  Its index is the number of constants so far. -/
def addConstant (c : Chunk α) (value : α) : Chunk α :=
  { c with constants := c.constants.push value }

/-- The line of the byte at an offset, if one is recorded. -/
def lineAt? (c : Chunk α) (offset : Nat) : Option Int := c.lines[offset]?

end Chunk

end LoxBytecode
