import LoxBytecode.Double.Decimal
import LoxBytecode.Proofs.Double.Nearest
import LoxBytecode.Proofs.Lexis.Grammar

/-!
# Decimals in writing

A decimal is written with digits alone where it is an integer, and otherwise with digits on both
sides of a point (`text_eq`).  Either way its text is a numeral, and the decimal that this
numeral denotes has the same value.  It need not be the same decimal: zeros that only lead up to
the point are digits like all others to the reader.
-/

namespace LoxBytecode

/-! ## Numerals -/

theorem IsDigit.ne_point {c : Char} (h : IsDigit c) : c ≠ '.' := by
  rintro rfl
  exact absurd h (by decide)

theorem isDigit_of_mem_toDigits {n : ℕ} {c : Char} (h : c ∈ Nat.toDigits 10 n) : IsDigit c := by
  have hdigit := Nat.isDigit_of_mem_toDigits (by decide) (by decide) h
  simpa [Char.isDigit, IsDigit, Char.le_def] using hdigit

section Spells

variable {whole fraction : List Char}

theorem Spells.of_digits (hne : whole ≠ []) (hdigits : ∀ c ∈ whole, IsDigit c) :
    Spells .number whole := by
  obtain ⟨first, rest, rfl⟩ := List.exists_cons_of_ne_nil hne
  obtain ⟨hfirst, hrest⟩ := List.forall_mem_cons.mp hdigits
  exact .whole hfirst hrest

theorem Spells.of_point (hwhole : whole ≠ []) (hfraction : fraction ≠ [])
    (hdigits : ∀ c ∈ whole ++ fraction, IsDigit c) :
    Spells .number (whole ++ '.' :: fraction) := by
  obtain ⟨first, digits, rfl⟩ := List.exists_cons_of_ne_nil hwhole
  obtain ⟨tenth, decimals, rfl⟩ := List.exists_cons_of_ne_nil hfraction
  obtain ⟨hbefore, hbehind⟩ := List.forall_mem_append.mp hdigits
  obtain ⟨hfirst, hrest⟩ := List.forall_mem_cons.mp hbefore
  obtain ⟨htenth, hdecimals⟩ := List.forall_mem_cons.mp hbehind
  exact .fraction hfirst hrest htenth hdecimals

end Spells

namespace Decimal

variable {whole fraction : List Char}

theorem span_point (hdigits : ∀ c ∈ whole, IsDigit c) (rest : List Char) :
    (whole ++ rest).takeWhile (· != '.') = whole ++ rest.takeWhile (· != '.') ∧
      (whole ++ rest).dropWhile (· != '.') = rest.dropWhile (· != '.') := by
  have hall : ∀ c ∈ whole, (c != '.') = true := fun c hc => by simpa using (hdigits c hc).ne_point
  exact ⟨List.takeWhile_append_of_pos hall, List.dropWhile_append_of_pos hall⟩

theorem ofText_of_digits (hdigits : ∀ c ∈ whole, IsDigit c) :
    ofText whole = ⟨Nat.ofDigitChars 10 whole 0, 0⟩ := by
  obtain ⟨htake, hdrop⟩ := span_point hdigits []
  simp only [List.append_nil, List.takeWhile_nil, List.dropWhile_nil] at htake hdrop
  simp [ofText, htake, hdrop]

theorem ofText_of_point (hdigits : ∀ c ∈ whole, IsDigit c) :
    ofText (whole ++ '.' :: fraction) =
      ⟨Nat.ofDigitChars 10 (whole ++ fraction) 0, -(fraction.length : ℤ)⟩ := by
  obtain ⟨htake, hdrop⟩ := span_point hdigits ('.' :: fraction)
  simp [ofText, htake, hdrop]

/-! ## The text of a decimal -/

theorem isDigit_of_mem_replicate {n : ℕ} {c : Char} (h : c ∈ List.replicate n '0') :
    IsDigit c := by
  rw [List.eq_of_mem_replicate h]
  decide

/-- The zeros in front of a fraction do not count. -/
theorem ofDigitChars_padded (n digits : ℕ) :
    Nat.ofDigitChars 10 ('0' :: (List.replicate n '0' ++ Nat.toDigits 10 digits)) 0 = digits := by
  have hzeros : '0' :: (List.replicate n '0' ++ Nat.toDigits 10 digits) =
      List.replicate (n + 1) '0' ++ Nat.toDigits 10 digits := rfl
  rw [hzeros, Nat.ofDigitChars_append, Nat.ofDigitChars_replicate_zero, Nat.mul_zero,
    Nat.ofDigitChars_ten_toDigits]

/-- A decimal is written with digits alone, or else with a digit at least on both sides of a
point, as many behind it as the exponent says. -/
theorem text_eq (d : Decimal) :
    0 ≤ d.exponent ∧
        d.text = Nat.toDigits 10 d.digits ++ List.replicate d.exponent.toNat '0' ∨
      ∃ whole fraction, d.text = whole ++ '.' :: fraction ∧ whole ≠ [] ∧ fraction ≠ [] ∧
        (∀ c ∈ whole ++ fraction, IsDigit c) ∧ d.exponent = -(fraction.length : ℤ) ∧
        Nat.ofDigitChars 10 (whole ++ fraction) 0 = d.digits := by
  unfold text
  dsimp only
  have hdigits : ∀ c ∈ Nat.toDigits 10 d.digits, IsDigit c := fun c => isDigit_of_mem_toDigits
  have hvalue := Nat.ofDigitChars_ten_toDigits (n := d.digits)
  have hsome := Nat.length_toDigits_pos (b := 10) (n := d.digits)
  by_cases hplaces : (-d.exponent).toNat = 0
  · rw [if_pos hplaces]
    exact .inl ⟨by omega, rfl⟩
  right
  rw [if_neg hplaces]
  by_cases hinside : (-d.exponent).toNat < (Nat.toDigits 10 d.digits).length
  · -- the point stands among the digits
    rw [if_pos hinside]
    generalize Nat.toDigits 10 d.digits = digits at hdigits hvalue hinside ⊢
    have hsplit := List.take_append_drop (digits.length - (-d.exponent).toNat) digits
    refine ⟨_, _, rfl, ?_, ?_, ?_, ?_, ?_⟩
    · exact List.ne_nil_of_length_pos (by rw [List.length_take]; omega)
    · exact List.ne_nil_of_length_pos (by rw [List.length_drop]; omega)
    · rwa [hsplit]
    · rw [List.length_drop]
      omega
    · rwa [hsplit]
  · -- zeros fill the places between the point and the digits
    rw [if_neg hinside]
    refine ⟨['0'], List.replicate _ '0' ++ Nat.toDigits 10 d.digits, rfl, List.cons_ne_nil _ _,
      ?_, ?_, ?_, ?_⟩
    · exact List.append_ne_nil_of_right_ne_nil _ Nat.toDigits_ne_nil
    · rw [List.singleton_append]
      refine List.forall_mem_cons.mpr ⟨by decide, List.forall_mem_append.mpr ⟨?_, hdigits⟩⟩
      exact fun c => isDigit_of_mem_replicate
    · rw [List.length_append, List.length_replicate]
      omega
    · exact ofDigitChars_padded _ _

theorem digits_padded (d : Decimal) :
    ∀ c ∈ Nat.toDigits 10 d.digits ++ List.replicate d.exponent.toNat '0', IsDigit c :=
  List.forall_mem_append.mpr
    ⟨fun _ => isDigit_of_mem_toDigits, fun _ => isDigit_of_mem_replicate⟩

/-- The text of a decimal is a numeral. -/
theorem spells_text (d : Decimal) : Spells .number d.text := by
  rcases d.text_eq with ⟨-, htext⟩ | ⟨whole, fraction, htext, hwhole, hfraction, hdigits, -, -⟩
  · rw [htext]
    exact .of_digits (List.append_ne_nil_of_left_ne_nil Nat.toDigits_ne_nil _) d.digits_padded
  · rw [htext]
    exact .of_point hwhole hfraction hdigits

/-- The decimal that the text of a decimal denotes. -/
theorem ofText_text (d : Decimal) :
    ofText d.text = ⟨d.digits * 10 ^ d.exponent.toNat, min d.exponent 0⟩ := by
  rcases d.text_eq with ⟨hexponent, htext⟩ |
    ⟨whole, fraction, htext, -, -, hdigits, hexponent, hvalue⟩
  · rw [htext, ofText_of_digits d.digits_padded, Nat.ofDigitChars_append,
      Nat.ofDigitChars_ten_toDigits, Nat.ofDigitChars_replicate_zero, Nat.mul_comm,
      min_eq_right hexponent]
  · have hnone : d.exponent.toNat = 0 := by omega
    rw [htext, ofText_of_point (List.forall_mem_append.mp hdigits).1, hvalue, hnone, pow_zero,
      Nat.mul_one, ← hexponent, min_eq_left (by omega)]

/-! ## Values -/

def value (d : Decimal) : ℚ := d.digits * (10 : ℚ) ^ d.exponent

theorem ratio_quotient (d : Decimal) : Double.ratio d.quotient = d.value :=
  Double.ratio_pow 10 d.digits d.exponent

theorem quotient_den_pos (d : Decimal) : 0 < d.quotient.2 := Nat.pow_pos (by decide)

/-- Units may be taken smaller, if there are more of them. -/
theorem value_shift (digits n : ℕ) (e : ℤ) :
    value ⟨digits * 10 ^ n, e⟩ = value ⟨digits, e + n⟩ := by
  have hten : (10 : ℚ) ≠ 0 := by norm_num
  simp only [value, Nat.cast_mul, Nat.cast_pow, Nat.cast_ofNat, zpow_add₀ hten, zpow_natCast]
  ring

/-- What is written denotes the same value. -/
theorem value_ofText_text (d : Decimal) : (ofText d.text).value = d.value := by
  have hexponent : min d.exponent 0 + (d.exponent.toNat : ℤ) = d.exponent := by omega
  rw [ofText_text, value_shift, hexponent]

theorem value_reduced (d : Decimal) : d.reduced.value = d.value := by
  fun_induction reduced d with
  | case1 d h ih =>
      have hdigits : d.digits / 10 * 10 ^ 1 = d.digits := by omega
      rw [ih, ← Nat.cast_one, ← value_shift, hdigits]
  | case2 => rfl

end Decimal

end LoxBytecode
