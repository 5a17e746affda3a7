import LoxBytecode.Double.Nearest
import Mathlib.Algebra.Order.Field.Power
import Mathlib.Algebra.Order.Floor.Semifield
import Mathlib.Data.Int.Log
import Mathlib.Data.Rat.Floor
import Mathlib.Tactic.NormNum
import Mathlib.Tactic.Positivity
import Mathlib.Tactic.Ring

/-!
# Rounding to a double

Rounding is computed on a quotient of natural numbers, but it depends on nothing but the
rational number that the quotient is: quotients of one value are rounded alike
(`nearest_congr`).  The exponent at which a value is rounded is that of the power of two below
it, fifty-two places further down, and never below that of the subnormals.

A value that is a double already is left as it is (`nearest_quotient`).
-/

namespace LoxBytecode.Double

variable {num den : ℕ}

/-- The rational number that a quotient of natural numbers is. -/
def ratio (q : ℕ × ℕ) : ℚ := (q.1 : ℚ) / q.2

/-! ## Powers above and below -/

/-- A power is multiplied to one side of a quotient or the other, by the sign of its exponent. -/
theorem ratio_mul_pow (b num den : ℕ) (e : ℤ) :
    ratio (num * b ^ e.toNat, den * b ^ (-e).toNat) = ratio (num, den) * (b : ℚ) ^ e := by
  obtain ⟨n, rfl | rfl⟩ := e.eq_nat_or_neg
  · simp [ratio, div_mul_eq_mul_div]
  · simp [ratio, div_mul_eq_div_div, div_right_comm, ← div_eq_mul_inv]

theorem ratio_pow (b n : ℕ) (e : ℤ) :
    ratio (n * b ^ e.toNat, b ^ (-e).toNat) = n * (b : ℚ) ^ e := by
  have hscaled := ratio_mul_pow b n 1 e
  rw [one_mul] at hscaled
  simpa [ratio] using hscaled

theorem mul_pow_pos {b : ℕ} (hb : b ≠ 0) (h : 0 < num) (n : ℕ) : 0 < num * b ^ n :=
  Nat.mul_pos h (Nat.pow_pos (Nat.pos_of_ne_zero hb))

/-! ## Rounding to an integer -/

theorem roundHalfEven_mul_left {k : ℕ} (hk : 0 < k) (num den : ℕ) :
    roundHalfEven (k * num) (k * den) = roundHalfEven num den := by
  have hhalf : ∀ r, 2 * (k * r) < k * den ↔ 2 * r < den := fun r => by
    rw [Nat.mul_left_comm, Nat.mul_lt_mul_left hk]
  have hhalf' : ∀ r, k * den < 2 * (k * r) ↔ den < 2 * r := fun r => by
    rw [Nat.mul_left_comm, Nat.mul_lt_mul_left hk]
  unfold roundHalfEven
  simp only [Nat.mul_div_mul_left _ _ hk, Nat.mul_mod_mul_left, hhalf, hhalf']

theorem roundHalfEven_congr {num' den' : ℕ} (hden : 0 < den) (hden' : 0 < den')
    (h : num * den' = num' * den) : roundHalfEven num den = roundHalfEven num' den' :=
  calc roundHalfEven num den
      = roundHalfEven (den' * num) (den' * den) := (roundHalfEven_mul_left hden' num den).symm
    _ = roundHalfEven (den * num') (den * den') := by
        rw [Nat.mul_comm den' num, h, Nat.mul_comm num', Nat.mul_comm den']
    _ = roundHalfEven num' den' := roundHalfEven_mul_left hden num' den'

theorem cross_of_ratio {q q' : ℕ × ℕ} (hq : 0 < q.2) (hq' : 0 < q'.2) (h : ratio q = ratio q') :
    q.1 * q'.2 = q'.1 * q.2 := by
  have hne : (q.2 : ℚ) ≠ 0 := Nat.cast_ne_zero.mpr hq.ne'
  have hne' : (q'.2 : ℚ) ≠ 0 := Nat.cast_ne_zero.mpr hq'.ne'
  exact_mod_cast (div_eq_div_iff hne hne').mp h

/-- An integer is not rounded. -/
theorem roundHalfEven_of_ratio {s : ℕ} (hden : 0 < den) (h : ratio (num, den) = s) :
    roundHalfEven num den = s := by
  have hsame : ratio (num, den) = ratio (s, 1) := by simpa [ratio] using h
  have hcross : num * 1 = s * den := cross_of_ratio hden Nat.one_pos hsame
  rw [roundHalfEven_congr hden Nat.one_pos hcross]
  simp [roundHalfEven, Nat.mod_one]

/-! ## The exponent -/

theorem log_eq_of_le_of_lt {r : ℚ} (hr : 0 < r) {t : ℤ} (hlow : (2 : ℚ) ^ t ≤ r)
    (hhigh : r < (2 : ℚ) ^ (t + 1)) : Int.log 2 r = t := by
  have hle := (Int.zpow_le_iff_le_log (by decide : 1 < 2) hr).mp hlow
  have hlt := (Int.lt_zpow_iff_log_lt (by decide : 1 < 2) hr).mp hhigh
  omega

theorem ratio_pos (hnum : 0 < num) (hden : 0 < den) : 0 < ratio (num, den) := by
  have hnum' : (0 : ℚ) < num := Nat.cast_pos.mpr hnum
  have hden' : (0 : ℚ) < den := Nat.cast_pos.mpr hden
  exact div_pos hnum' hden'

/-- The power of two below a quotient is at most one place from what the powers of two below its
two numbers say. -/
theorem ratio_bounds (hnum : 0 < num) (hden : 0 < den) :
    (2 : ℚ) ^ ((num.log2 : ℤ) - den.log2 - 1) ≤ ratio (num, den) ∧
      ratio (num, den) < (2 : ℚ) ^ ((num.log2 : ℤ) - den.log2 + 1) := by
  have hnumLow : (2 : ℚ) ^ (num.log2 : ℤ) ≤ num := by
    exact_mod_cast Nat.log2_self_le hnum.ne'
  have hnumHigh : (num : ℚ) < 2 ^ ((num.log2 : ℤ) + 1) := by
    exact_mod_cast Nat.lt_log2_self
  have hdenLow : (2 : ℚ) ^ (den.log2 : ℤ) ≤ den := by
    exact_mod_cast Nat.log2_self_le hden.ne'
  have hdenHigh : (den : ℚ) < 2 ^ ((den.log2 : ℤ) + 1) := by
    exact_mod_cast Nat.lt_log2_self
  have hden' : (0 : ℚ) < den := Nat.cast_pos.mpr hden
  constructor
  · calc (2 : ℚ) ^ ((num.log2 : ℤ) - den.log2 - 1)
        = 2 ^ (num.log2 : ℤ) / 2 ^ ((den.log2 : ℤ) + 1) := by
          rw [← zpow_sub₀ (by norm_num)]
          congr 1
          ring
      _ ≤ ratio (num, den) := div_le_div₀ (by positivity) hnumLow hden' hdenHigh.le
  · calc ratio (num, den)
        < 2 ^ ((num.log2 : ℤ) + 1) / 2 ^ (den.log2 : ℤ) :=
          div_lt_div₀ hnumHigh hdenLow (by positivity) (by positivity)
      _ = (2 : ℚ) ^ ((num.log2 : ℤ) - den.log2 + 1) := by
          rw [← zpow_sub₀ (by norm_num)]
          congr 1
          ring

theorem lt_mul_pow_iff (num : ℕ) (hden : 0 < den) (e : ℤ) (n : ℕ) :
    num * 2 ^ (-e).toNat < den * 2 ^ e.toNat * 2 ^ n ↔ ratio (num, den) < (2 : ℚ) ^ (e + n) := by
  have hscaled := ratio_mul_pow 2 num den (-e)
  rw [neg_neg, Nat.cast_ofNat] at hscaled
  have hbelow : (0 : ℚ) < (den * 2 ^ e.toNat : ℕ) := by exact_mod_cast mul_pow_pos two_ne_zero hden _
  have hpow : (0 : ℚ) < 2 ^ e := by positivity
  calc num * 2 ^ (-e).toNat < den * 2 ^ e.toNat * 2 ^ n
      ↔ ((num * 2 ^ (-e).toNat : ℕ) : ℚ) < (den * 2 ^ e.toNat : ℕ) * 2 ^ n := by
        exact_mod_cast Iff.rfl
    _ ↔ ratio (num * 2 ^ (-e).toNat, den * 2 ^ e.toNat) < 2 ^ n := (div_lt_iff₀' hbelow).symm
    _ ↔ ratio (num, den) < (2 : ℚ) ^ (e + n) := by
        rw [hscaled, zpow_neg, ← div_eq_mul_inv, div_lt_iff₀' hpow, zpow_add₀ (by norm_num),
          zpow_natCast]

theorem roundingExponent_eq (hnum : 0 < num) (hden : 0 < den) :
    roundingExponent num den = max (Int.log 2 (ratio (num, den)) - 52) (-1074) := by
  have hpos := ratio_pos hnum hden
  obtain ⟨hlow, hhigh⟩ := ratio_bounds hnum hden
  have hfits := lt_mul_pow_iff num hden ((num.log2 : ℤ) - den.log2 - 53) 53
  have hplaces : (num.log2 : ℤ) - den.log2 - 53 + (53 : ℕ) = num.log2 - den.log2 := by omega
  rw [hplaces] at hfits
  unfold roundingExponent
  simp only [Nat.pow_eq, hfits]
  by_cases hlt : ratio (num, den) < (2 : ℚ) ^ ((num.log2 : ℤ) - den.log2)
  · have hlog := log_eq_of_le_of_lt hpos hlow (by rwa [sub_add_cancel])
    rw [if_pos hlt, hlog]
    omega
  · have hlog := log_eq_of_le_of_lt hpos (not_lt.mp hlt) hhigh
    rw [if_neg hlt, hlog]
    omega

/-! ## Rounding -/

/-- Quotients of one value are rounded alike. -/
theorem nearest_congr {q q' : ℕ × ℕ} (hq : 0 < q.2) (hq' : 0 < q'.2) (h : ratio q = ratio q') :
    nearest q.1 q.2 = nearest q'.1 q'.2 := by
  have hcross := cross_of_ratio hq hq' h
  unfold nearest
  by_cases hzero : q.1 = 0
  · have hzero' : q'.1 = 0 := by
      rw [hzero, Nat.zero_mul] at hcross
      exact (Nat.mul_eq_zero.mp hcross.symm).resolve_right hq.ne'
    rw [if_pos hzero, if_pos hzero']
  · have hzero' : q'.1 ≠ 0 := by
      rintro hzero'
      rw [hzero', Nat.zero_mul] at hcross
      exact hzero ((Nat.mul_eq_zero.mp hcross).resolve_right hq'.ne')
    have hexponent : roundingExponent q.1 q.2 = roundingExponent q'.1 q'.2 := by
      rw [roundingExponent_eq (Nat.pos_of_ne_zero hzero) hq,
        roundingExponent_eq (Nat.pos_of_ne_zero hzero') hq']
      exact congrArg (fun r => max (Int.log 2 r - 52) (-1074)) h
    rw [if_neg hzero, if_neg hzero', hexponent]
    simp only [Nat.pow_eq]
    rw [roundHalfEven_congr (mul_pow_pos two_ne_zero hq _) (mul_pow_pos two_ne_zero hq' _)]
    rw [Nat.mul_mul_mul_comm, hcross, Nat.mul_mul_mul_comm]

section Exact

variable {s : ℕ} {e : ℤ}

/-- The exponent of a value that needs no more than fifty-three binary places from there on. -/
theorem roundingExponent_of_ratio (hnum : 0 < num) (hden : 0 < den)
    (h : ratio (num, den) = s * (2 : ℚ) ^ e) (hs : s < 2 ^ 53) (he : -1074 ≤ e)
    (hnormal : 2 ^ 52 ≤ s ∨ e = -1074) : roundingExponent num den = e := by
  have hpos := ratio_pos hnum hden
  have hpow : (0 : ℚ) < 2 ^ e := by positivity
  have hhigh : ratio (num, den) < (2 : ℚ) ^ (53 + e) := by
    rw [h, zpow_add₀ (by norm_num)]
    exact mul_lt_mul_of_pos_right (by exact_mod_cast hs) hpow
  have hlt := (Int.lt_zpow_iff_log_lt (by decide : 1 < 2) hpos).mp hhigh
  rw [roundingExponent_eq hnum hden]
  rcases hnormal with hnormal | rfl
  · have hlow : (2 : ℚ) ^ (52 + e) ≤ ratio (num, den) := by
      rw [h, zpow_add₀ (by norm_num)]
      exact mul_le_mul_of_nonneg_right (by exact_mod_cast hnormal) hpow.le
    have hle := (Int.zpow_le_iff_le_log (by decide : 1 < 2) hpos).mp hlow
    omega
  · omega

/-- What is a multiple of a power of two that doubles are multiples of is not rounded. -/
theorem nearest_of_ratio (hden : 0 < den) (h : ratio (num, den) = s * (2 : ℚ) ^ e)
    (hs : s < 2 ^ 53) (he : -1074 ≤ e) (hnormal : 2 ^ 52 ≤ s ∨ e = -1074) :
    nearest num den = min infinity ((e + 1074).toNat * 2 ^ 52 + s) := by
  have hpow : (0 : ℚ) < 2 ^ e := by positivity
  unfold nearest
  by_cases hzero : num = 0
  · have hproduct : (s : ℚ) * 2 ^ e = 0 := by
      rw [← h, hzero]
      simp [ratio]
    have hs0 : s = 0 := by exact_mod_cast (mul_eq_zero.mp hproduct).resolve_right hpow.ne'
    have he0 : e = -1074 := hnormal.resolve_left (by rw [hs0]; decide)
    rw [if_pos hzero, hs0, he0]
    rfl
  · have hscaled : ratio (num * 2 ^ (-e).toNat, den * 2 ^ e.toNat) = s := by
      have hmul := ratio_mul_pow 2 num den (-e)
      rwa [neg_neg, h, Nat.cast_ofNat, zpow_neg, mul_assoc, mul_inv_cancel₀ hpow.ne',
        mul_one] at hmul
    rw [if_neg hzero, roundingExponent_of_ratio (Nat.pos_of_ne_zero hzero) hden h hs he hnormal]
    simp only [Nat.pow_eq]
    rw [roundHalfEven_of_ratio (mul_pow_pos two_ne_zero hden _) hscaled]

end Exact

/-! ## Doubles are not rounded -/

theorem ratio_quotient (magnitude : ℕ) :
    ratio (quotient magnitude) = significand magnitude * (2 : ℚ) ^ exponent magnitude :=
  ratio_pow 2 (significand magnitude) (exponent magnitude)

theorem quotient_den_pos (magnitude : ℕ) : 0 < (quotient magnitude).2 :=
  Nat.pow_pos two_pos

/-- The significand of a finite magnitude and its exponent are within bounds, and they give the
magnitude back. -/
theorem significand_exponent (magnitude : ℕ) :
    significand magnitude < 2 ^ 53 ∧ -1074 ≤ exponent magnitude ∧
      (2 ^ 52 ≤ significand magnitude ∨ exponent magnitude = -1074) ∧
      (exponent magnitude + 1074).toNat * 2 ^ 52 + significand magnitude = magnitude := by
  have hparts := Nat.div_add_mod magnitude (2 ^ 52)
  have hmod := Nat.mod_lt magnitude (Nat.two_pow_pos 52)
  unfold significand exponent
  simp only [Nat.pow_eq]
  by_cases hsmall : magnitude < 2 ^ 52
  · simp only [if_pos hsmall]
    exact ⟨by omega, le_rfl, .inr trivial, by simp⟩
  · have hdiv : 1 ≤ magnitude / 2 ^ 52 := by omega
    simp only [if_neg hsmall]
    omega

/-- The value of a finite double is rounded to that double. -/
theorem nearest_quotient {magnitude : ℕ} (h : magnitude < infinity) :
    nearest (quotient magnitude).1 (quotient magnitude).2 = magnitude := by
  obtain ⟨hs, he, hnormal, hsum⟩ := significand_exponent magnitude
  have hnearest :=
    nearest_of_ratio (quotient_den_pos magnitude) (ratio_quotient magnitude) hs he hnormal
  rw [hsum, Nat.min_eq_right h.le] at hnearest
  exact hnearest

end LoxBytecode.Double
