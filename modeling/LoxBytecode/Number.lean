/-!
# Numbers

Compiling, executing and listing byte code never look inside a number.  What
they need of numbers is gathered in `Number`: the five operations, the number
that a numeral stands for, and the text of a number.  The numbers of the running
program are doubles, but nothing is proved or computed from that.
-/

namespace LoxBytecode

/-- Arithmetic with numerals and printed values. -/
class Number (α : Type) extends Add α, Sub α, Mul α, Div α, Neg α where
  /-- The number that a numeral denotes. -/
  ofNumeral : List Char → α
  render : α → String

end LoxBytecode
