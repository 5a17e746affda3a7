import LoxBytecode.Grammar.Operator

/-!
# Operation codes

An instruction is one byte for the operation, and for a constant one more byte,
its place in the pool of constants.
-/

namespace LoxBytecode

inductive Opcode where
  /-- Puts a number of the pool on the stack. -/
  | constant
  /-- Replaces the two topmost numbers by the value of the operator. -/
  | operator (op : Operator)
  /-- Turns the sign of the topmost number. -/
  | negate
  /-- Ends the execution with the topmost number. -/
  | ret
  deriving DecidableEq, Repr

namespace Opcode

def all : List Opcode :=
  [constant, operator .add, operator .subtract, operator .multiply, operator .divide, negate, ret]

def byte : Opcode → UInt8
  | constant => 0
  | operator .add => 1
  | operator .subtract => 2
  | operator .multiply => 3
  | operator .divide => 4
  | negate => 5
  | ret => 6

/-- The operation that a byte stands for. -/
def ofByte? (byte : UInt8) : Option Opcode :=
  match byte.toNat with
  | 0 => some constant
  | 1 => some (operator .add)
  | 2 => some (operator .subtract)
  | 3 => some (operator .multiply)
  | 4 => some (operator .divide)
  | 5 => some negate
  | 6 => some ret
  | _ => none

def size : Opcode → Nat
  | constant => 2
  | _ => 1

def name : Opcode → String
  | constant => "CONSTANT"
  | operator .add => "ADD"
  | operator .subtract => "SUBTRACT"
  | operator .multiply => "MULTIPLY"
  | operator .divide => "DIVIDE"
  | negate => "NEGATE"
  | ret => "RETURN"

@[simp] theorem ofByte?_byte (op : Opcode) : ofByte? op.byte = some op := by
  cases op with
  | operator op => cases op <;> rfl
  | _ => rfl

end Opcode

end LoxBytecode
