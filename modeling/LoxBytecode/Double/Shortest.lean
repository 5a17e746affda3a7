import LoxBytecode.Double.Decimal
import LoxBytecode.Double.Nearest

/-!
# The shortest decimal of a double

`shortest` gives the decimal with the fewest digits that reads back to a
magnitude, and among those the one closest to its value.

With `n` digits the decimals around a value form a grid, whose step is `10 ^ n`
times smaller than the first power of ten above the value.  If any point of the
grid reads back, then so does one of the two points next to the value; so it is
enough to try these two for one digit, for two digits and so on.  Seventeen
digits suffice for every double.  Should the search ever come up empty, the exact
value of the double stands in: it reads back too.
-/

namespace LoxBytecode.Double

/-- The decimal `d` reads back to `magnitude`. -/
def readsBack (magnitude : Nat) (d : Decimal) : Bool :=
  nearest d.quotient.1 d.quotient.2 == magnitude

def digitCount (n : Nat) : Nat := (Nat.toDigits 10 n).length

/-- The least `k` with `num / den < 10 ^ k`, for a positive quotient. -/
def decimalScale (num den : Nat) : Int :=
  if den ≤ num then digitCount (num / den) else 1 - (digitCount ((den - 1) / num) : Int)

/-- The decimal to take of the two neighbours of `num / den` on the grid of
`10 ^ exponent`, if one of them reads back: the closer one where both do, and the
one with the even last digit where they are equally close. -/
def neighbour? (magnitude num den : Nat) (exponent : Int) : Option Decimal :=
  let scaled := num * Nat.pow 10 (-exponent).toNat
  let unit := den * Nat.pow 10 exponent.toNat
  let low := scaled / unit
  let below : Decimal := ⟨low, exponent⟩
  let above : Decimal := ⟨low + 1, exponent⟩
  match readsBack magnitude below, readsBack magnitude above with
  | true, true =>
    let middle := (2 * low + 1) * unit
    if 2 * scaled < middle then some below
    else if middle < 2 * scaled then some above
    else if low % 2 = 0 then some below
    else some above
  | true, false => some below
  | false, true => some above
  | false, false => none

/-- The exact value of a finite magnitude. -/
def exactDecimal (magnitude : Nat) : Decimal :=
  let e := exponent magnitude
  ⟨significand magnitude * Nat.pow 2 e.toNat * Nat.pow 5 (-e).toNat, min e 0⟩

/-- The decimal with the fewest digits that reads back to a finite magnitude. -/
def shortest (magnitude : Nat) : Decimal :=
  if magnitude = 0 then ⟨0, 0⟩
  else
    let (num, den) := quotient magnitude
    let scale := decimalScale num den
    let found := (List.range 17).findSome? fun n =>
      neighbour? magnitude num den (scale - (n + 1 : Nat))
    (found.getD (exactDecimal magnitude)).reduced

end LoxBytecode.Double
