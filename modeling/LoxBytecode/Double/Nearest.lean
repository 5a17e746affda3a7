import LoxBytecode.Double.Basic

/-!
# The nearest double

`nearest num den` is the magnitude of the double closest to `num / den`.  A
quotient halfway between two doubles goes to the one with the even significand;
a quotient too large for every finite double goes to `infinity`.

The quotient is first written as `s * 2 ^ e` with `2 ^ 52 ≤ s < 2 ^ 53`, or with
`e = -1074` where it is too small for that.  Rounding `s` to an integer then is
all the rounding there is: if `s` is rounded up to `2 ^ 53`, the sum in `nearest`
carries into the exponent of its own accord.
-/

namespace LoxBytecode.Double

/-- `num / den` rounded to an integer, a half to the even neighbour. -/
def roundHalfEven (num den : Nat) : Nat :=
  let low := num / den
  let twice := 2 * (num % den)
  if twice < den then low else if den < twice then low + 1 else low + low % 2

/-- The exponent at which `num / den` is rounded to an integer significand. -/
def roundingExponent (num den : Nat) : Int :=
  let guess : Int := (num.log2 : Int) - den.log2 - 53
  let fits := num * Nat.pow 2 (-guess).toNat < den * Nat.pow 2 guess.toNat * Nat.pow 2 53
  max (if fits then guess else guess + 1) (-1074)

/-- The magnitude of the double nearest to `num / den`. -/
def nearest (num den : Nat) : Nat :=
  if num = 0 then 0
  else
    let e := roundingExponent num den
    let rounded := roundHalfEven (num * Nat.pow 2 (-e).toNat) (den * Nat.pow 2 e.toNat)
    min infinity ((e + 1074).toNat * Nat.pow 2 52 + rounded)

end LoxBytecode.Double
