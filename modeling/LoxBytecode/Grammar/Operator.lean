import LoxBytecode.Grammar.Precedence
import LoxBytecode.Number
import LoxBytecode.Token.Kind

/-!
# Operators and operands

Which tokens may begin an operand, which join two operands, and how tightly.
-/

namespace LoxBytecode

inductive Operator where
  | add
  | subtract
  | multiply
  | divide
  deriving DecidableEq, Repr

namespace Operator

/-- Addition and subtraction bind less tightly than multiplication and division. -/
def precedence : Operator → Precedence
  | add => .term
  | subtract => .term
  | multiply => .factor
  | divide => .factor

/-- The value of an operator at its left and its right operand. -/
def apply {α : Type} [Number α] : Operator → α → α → α
  | add, a, b => a + b
  | subtract, a, b => a - b
  | multiply, a, b => a * b
  | divide, a, b => a / b

end Operator

inductive OperandForm where
  | number
  | grouping
  | negation
  deriving DecidableEq, Repr

namespace Token.Kind

/-- The operator that a token is when it stands behind an operand. -/
def operator? : Kind → Option Operator
  | plus => some .add
  | minus => some .subtract
  | star => some .multiply
  | slash => some .divide
  | _ => none

/-- The form of the operand that a token begins. -/
def operandForm? : Kind → Option OperandForm
  | number => some .number
  | leftParen => some .grouping
  | minus => some .negation
  | _ => none

/-- How tightly a token binds the operand before it; not at all if it is no operator. -/
def precedence (kind : Kind) : Precedence :=
  kind.operator?.elim .none Operator.precedence

end Token.Kind

end LoxBytecode
