import LoxBytecode.Double.Shortest
import LoxBytecode.Number

/-!
# Numerals and printed doubles

A numeral denotes the double nearest to its decimal value.  A double is printed
with the fewest digits that read back, never with an exponent and never with a
fraction of zeros; the sign of a negative zero shows.

Printing follows what the library printer behind the format of values is documented to give in its
positional mode: the fewest digits that identify the double, the closest of these to its value,
zeros up to the decimal point where the digits do not reach it, and no zeros, nor a point, behind
the last digit of the fraction.
-/

namespace LoxBytecode.Double

def ofNumeral (text : List Char) : Double :=
  let value := (Decimal.ofText text).quotient
  ofMagnitude (nearest value.1 value.2)

/-- The text of a double in the positional format. -/
def render (x : Double) : String :=
  if x.isNaN then "NaN"
  else
    let sign := if x.isNegative then ['-'] else []
    let digits := if x.isInfinite then ['i', 'n', 'f'] else (shortest x.magnitude).text
    String.ofList (sign ++ digits)

instance : Number Double where
  ofNumeral := ofNumeral
  render := render

end LoxBytecode.Double
