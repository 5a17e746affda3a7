/-!
# Decimals

A decimal is a natural number of units of a power of ten.  It is written
positionally, however large or small it is: digits, padded with zeros up to the
decimal point, and a point only where a fraction follows.
-/

namespace LoxBytecode

/-- The number `digits * 10 ^ exponent`. -/
structure Decimal where
  digits : Nat
  exponent : Int
  deriving DecidableEq, Repr

namespace Decimal

/-- The value of a decimal as a quotient of natural numbers. -/
def quotient (d : Decimal) : Nat × Nat :=
  (d.digits * Nat.pow 10 d.exponent.toNat, Nat.pow 10 (-d.exponent).toNat)

/-- The same number with no zero at the end of its digits. -/
def reduced (d : Decimal) : Decimal :=
  if _h : d.digits % 10 = 0 ∧ d.digits ≠ 0 then reduced ⟨d.digits / 10, d.exponent + 1⟩ else d
termination_by d.digits
decreasing_by omega

def text (d : Decimal) : List Char :=
  let digits := Nat.toDigits 10 d.digits
  let places := (-d.exponent).toNat
  if places = 0 then digits ++ List.replicate d.exponent.toNat '0'
  else if places < digits.length then
    digits.take (digits.length - places) ++ '.' :: digits.drop (digits.length - places)
  else '0' :: '.' :: List.replicate (places - digits.length) '0' ++ digits

/-- The decimal that a numeral denotes: digits, or digits, a point and digits. -/
def ofText (text : List Char) : Decimal :=
  let whole := text.takeWhile (· != '.')
  let fraction := (text.dropWhile (· != '.')).drop 1
  ⟨Nat.ofDigitChars 10 (whole ++ fraction) 0, -(fraction.length : Int)⟩

end Decimal

end LoxBytecode
