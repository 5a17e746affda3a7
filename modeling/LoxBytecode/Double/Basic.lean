/-!
# Doubles

The numbers of the language are IEEE doubles, held as their sixty-four bits so
that equality tells the two zeros apart and never fails on a NaN.  Arithmetic is
that of the machine: the correctly rounded result, infinities on overflow and on
division by zero, NaN where no value makes sense.

Apart from its sign a double is a natural number, its *magnitude*.  Magnitudes
are ordered as the values are: the subnormals and zero come first, then the
normal numbers, then `infinity`, then the NaNs.
-/

namespace LoxBytecode

/-- An IEEE double, given by its bits. -/
structure Double where
  bits : UInt64
  deriving DecidableEq, Repr, Inhabited

namespace Double

def toFloat (x : Double) : Float := Float.ofBits x.bits

def ofFloat (x : Float) : Double := ⟨x.toBits⟩

instance : Add Double := ⟨fun x y => ofFloat (x.toFloat + y.toFloat)⟩

instance : Sub Double := ⟨fun x y => ofFloat (x.toFloat - y.toFloat)⟩

instance : Mul Double := ⟨fun x y => ofFloat (x.toFloat * y.toFloat)⟩

instance : Div Double := ⟨fun x y => ofFloat (x.toFloat / y.toFloat)⟩

/-- Negation turns the sign over and leaves all else, also of zeros and NaNs. -/
instance : Neg Double := ⟨fun x => ⟨x.bits ^^^ 0x8000000000000000⟩⟩

def isNegative (x : Double) : Bool := decide (Nat.pow 2 63 ≤ x.bits.toNat)

/-- The bits below the sign, as a number. -/
def magnitude (x : Double) : Nat := x.bits.toNat % Nat.pow 2 63

def infinity : Nat := 0x7ff * Nat.pow 2 52

/-- The double without sign that has the given magnitude. -/
def ofMagnitude (magnitude : Nat) : Double := ⟨magnitude.toUInt64⟩

def isNaN (x : Double) : Bool := decide (infinity < x.magnitude)

def isInfinite (x : Double) : Bool := x.magnitude == infinity

/-- The integer that a finite magnitude multiplies its power of two by. -/
def significand (magnitude : Nat) : Nat :=
  if magnitude < Nat.pow 2 52 then magnitude else Nat.pow 2 52 + magnitude % Nat.pow 2 52

/-- The exponent of the power of two in the value of a finite magnitude. -/
def exponent (magnitude : Nat) : Int :=
  if magnitude < Nat.pow 2 52 then -1074 else ((magnitude / Nat.pow 2 52 : Nat) : Int) - 1075

/-- The value of a finite magnitude as a quotient of natural numbers. -/
def quotient (magnitude : Nat) : Nat × Nat :=
  (significand magnitude * Nat.pow 2 (exponent magnitude).toNat,
    Nat.pow 2 (-exponent magnitude).toNat)

end Double

end LoxBytecode
