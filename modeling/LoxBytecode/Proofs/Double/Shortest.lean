import LoxBytecode.Double.Text
import LoxBytecode.Proofs.Double.Decimal

/-!
# The numeral of a double

The shortest decimal of a finite magnitude reads back to that magnitude, whether the search for
it comes to an end or the exact value has to stand in (`readsBack_shortest`).  Its text therefore
denotes the double without its sign, and negation puts the sign back, also that of a zero.
-/

namespace LoxBytecode.Double

variable {magnitude : ℕ} {d : Decimal}

/-! ## Decimals that read back -/

/-- Whether a decimal reads back is a matter of its value. -/
theorem readsBack_congr {d' : Decimal} (h : d.value = d'.value) :
    readsBack magnitude d = readsBack magnitude d' := by
  have hratio : ratio d.quotient = ratio d'.quotient := by
    rw [d.ratio_quotient, d'.ratio_quotient, h]
  unfold readsBack
  rw [nearest_congr d.quotient_den_pos d'.quotient_den_pos hratio]

theorem value_exactDecimal (magnitude : ℕ) :
    (exactDecimal magnitude).value = significand magnitude * (2 : ℚ) ^ exponent magnitude := by
  unfold exactDecimal Decimal.value
  dsimp only
  generalize exponent magnitude = e
  obtain ⟨n, rfl | rfl⟩ := e.eq_nat_or_neg
  · simp
  · have hten : (10 : ℚ) ^ n = 5 ^ n * 2 ^ n := by
      rw [← mul_pow]
      norm_num
    have hfive : (5 : ℚ) ^ n ≠ 0 := by positivity
    have hfraction : (5 : ℚ) ^ n * (10 ^ n)⁻¹ = (2 ^ n)⁻¹ := by
      rw [hten, mul_inv, mul_inv_cancel_left₀ hfive]
    simp [mul_assoc, hfraction]

theorem readsBack_exactDecimal (h : magnitude < infinity) :
    readsBack magnitude (exactDecimal magnitude) = true := by
  have hratio : ratio (exactDecimal magnitude).quotient = ratio (quotient magnitude) := by
    rw [Decimal.ratio_quotient, value_exactDecimal, ratio_quotient]
  have hnearest := nearest_congr (Decimal.quotient_den_pos _) (quotient_den_pos magnitude) hratio
  rw [nearest_quotient h] at hnearest
  simpa [readsBack] using hnearest

/-- A decimal is not taken before it has been read back. -/
theorem readsBack_of_neighbour? {num den : ℕ} {e : ℤ}
    (h : neighbour? magnitude num den e = some d) : readsBack magnitude d = true := by
  unfold neighbour? at h
  dsimp only at h
  generalize hlow : num * Nat.pow 10 (-e).toNat / (den * Nat.pow 10 e.toNat) = low at h
  cases hbelow : readsBack magnitude ⟨low, e⟩ <;> cases habove : readsBack magnitude ⟨low + 1, e⟩ <;>
    simp only [hbelow, habove] at h
  case false.false => cases h
  case false.true => cases h; exact habove
  case true.false => cases h; exact hbelow
  case true.true =>
    split at h
    · cases h
      exact hbelow
    split at h
    · cases h
      exact habove
    split at h
    · cases h
      exact hbelow
    · cases h
      exact habove

theorem readsBack_shortest (h : magnitude < infinity) :
    readsBack magnitude (shortest magnitude) = true := by
  unfold shortest
  by_cases hzero : magnitude = 0
  · rw [if_pos hzero, hzero]
    decide
  rw [if_neg hzero]
  dsimp only
  rw [readsBack_congr (Decimal.value_reduced _)]
  generalize hfound : List.findSome? _ (List.range 17) = found
  cases found with
  | none => exact readsBack_exactDecimal h
  | some d =>
      obtain ⟨n, -, hneighbour⟩ := List.exists_of_findSome?_eq_some hfound
      exact readsBack_of_neighbour? hneighbour

/-- The numeral of a finite magnitude denotes it. -/
theorem ofNumeral_text_shortest (h : magnitude < infinity) :
    ofNumeral (shortest magnitude).text = ofMagnitude magnitude := by
  have hread := readsBack_shortest h
  rw [← readsBack_congr (Decimal.value_ofText_text _)] at hread
  unfold ofNumeral
  dsimp only
  rw [beq_iff_eq.mp hread]

/-! ## Signs -/

/-- The sign that a double is printed with. -/
def sign (x : Double) : List Char := if x.isNegative then ['-'] else []

theorem toList_render {x : Double} (h : x.magnitude < infinity) :
    (render x).toList = x.sign ++ (shortest x.magnitude).text := by
  have hnumber : x.isNaN = false := decide_eq_false (Nat.lt_asymm h)
  have hfinite : x.isInfinite = false := beq_eq_false_iff_ne.mpr h.ne
  simp [render, sign, hnumber, hfinite]

theorem ofMagnitude_of_nonneg {x : Double} (h : x.isNegative = false) :
    ofMagnitude x.magnitude = x := by
  have hlt : x.bits.toNat < 2 ^ 63 := Nat.lt_of_not_le (of_decide_eq_false h)
  unfold ofMagnitude magnitude
  rw [Nat.pow_eq, Nat.mod_eq_of_lt hlt]
  simp

theorem xor_two_pow {a n : ℕ} (h : a < 2 ^ n) : a ^^^ 2 ^ n = 2 ^ n + a := by
  have hdiv : (a ^^^ 2 ^ n) / 2 ^ n = 1 := by
    simp [Nat.xor_div_two_pow, Nat.div_eq_of_lt h, Nat.div_self]
  have hmod : (a ^^^ 2 ^ n) % 2 ^ n = a := by
    simp [Nat.xor_mod_two_pow, Nat.mod_eq_of_lt h]
  have hparts := Nat.div_add_mod (a ^^^ 2 ^ n) (2 ^ n)
  rw [hdiv, hmod, Nat.mul_one] at hparts
  exact hparts.symm

/-- Negation puts the sign back. -/
theorem neg_ofMagnitude_of_negative {x : Double} (h : x.isNegative = true) :
    -ofMagnitude x.magnitude = x := by
  have hlow : 2 ^ 63 ≤ x.bits.toNat := of_decide_eq_true h
  have hhigh : x.bits.toNat < 2 ^ 64 := x.bits.toNat_lt
  have hmagnitude : x.magnitude = x.bits.toNat - 2 ^ 63 := by
    unfold magnitude
    rw [Nat.pow_eq]
    omega
  have hfits : x.magnitude.toUInt64.toNat = x.magnitude := by
    simp only [Nat.toUInt64_eq, UInt64.toNat_ofNat']
    omega
  have hbits : x.magnitude.toUInt64 ^^^ 0x8000000000000000 = x.bits := by
    apply UInt64.toNat_inj.mp
    calc (x.magnitude.toUInt64 ^^^ 0x8000000000000000).toNat
        = x.magnitude ^^^ 2 ^ 63 := by
          rw [UInt64.toNat_xor, hfits]
          rfl
      _ = 2 ^ 63 + x.magnitude := xor_two_pow (by omega)
      _ = x.bits.toNat := by omega
  exact congrArg Double.mk hbits

end LoxBytecode.Double
