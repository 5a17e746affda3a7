import LoxBytecode.Proofs.Bytecode.Pieces
import LoxBytecode.Proofs.Double.Shortest
import LoxBytecode.Proofs.Lexis.Separation

/-!
# Telling doubles from their texts

The text of a double that is a number begins with the sign, and the digits read back to the
magnitude; only infinity has letters for digits.  So different doubles have different texts, and
none of them breaks a line.  NaNs are all printed alike, but no numeral denotes one.
-/

namespace LoxBytecode.Double

variable {m n : ℕ} {x y : Double}

/-! ## Magnitudes -/

theorem nearest_le_infinity (num den : ℕ) : nearest num den ≤ infinity := by
  unfold nearest
  split
  · exact Nat.zero_le _
  · exact Nat.min_le_left _ _

theorem magnitude_ofMagnitude (h : m ≤ infinity) : (ofMagnitude m).magnitude = m := by
  have hlt : m < 2 ^ 63 := Nat.lt_of_le_of_lt h (by decide)
  have hbits : m.toUInt64.toNat = m := by
    simp only [Nat.toUInt64_eq, UInt64.toNat_ofNat']
    omega
  rw [ofMagnitude, magnitude, hbits]
  exact Nat.mod_eq_of_lt hlt

/-- A numeral denotes a number, if need be infinity. -/
theorem isNaN_ofNumeral (text : List Char) : (ofNumeral text).isNaN = false := by
  have hle := nearest_le_infinity (Decimal.ofText text).quotient.1 (Decimal.ofText text).quotient.2
  refine decide_eq_false (Nat.not_lt.mpr ?_)
  rw [ofNumeral, magnitude_ofMagnitude hle]
  exact hle

theorem magnitude_le_infinity (h : x.isNaN = false) : x.magnitude ≤ infinity :=
  Nat.not_lt.mp (of_decide_eq_false h)

/-- A double is known by its sign and its magnitude. -/
theorem eq_of_sign_of_magnitude (hsign : x.isNegative = y.isNegative)
    (hmagnitude : x.magnitude = y.magnitude) : x = y := by
  cases hx : x.isNegative with
  | true => rw [← neg_ofMagnitude_of_negative hx, hmagnitude,
      neg_ofMagnitude_of_negative (hsign ▸ hx)]
  | false => rw [← ofMagnitude_of_nonneg hx, hmagnitude, ofMagnitude_of_nonneg (hsign ▸ hx)]

/-! ## Digits -/

/-- What a magnitude is printed as. -/
def digits (magnitude : ℕ) : List Char :=
  if magnitude = infinity then ['i', 'n', 'f'] else (shortest magnitude).text

theorem toList_render_of_not_nan (h : x.isNaN = false) :
    (render x).toList = x.sign ++ digits x.magnitude := by
  rcases Nat.lt_or_eq_of_le (magnitude_le_infinity h) with hfinite | hinfinite
  · rw [toList_render hfinite, digits, if_neg hfinite.ne]
  · have hinf : x.isInfinite = true := beq_iff_eq.mpr hinfinite
    simp [render, sign, digits, h, hinf, hinfinite]

theorem exists_text_shortest (m : ℕ) :
    ∃ first rest, (shortest m).text = first :: rest ∧ IsDigit first ∧
      ∀ c ∈ rest, IsDigit c ∨ c = '.' := (Decimal.spells_text _).of_number

theorem head_digits (m : ℕ) : ∃ first rest, digits m = first :: rest ∧ first ≠ '-' := by
  unfold digits
  split
  · exact ⟨'i', ['n', 'f'], rfl, by decide⟩
  · obtain ⟨first, rest, htext, hdigit, -⟩ := exists_text_shortest m
    refine ⟨first, rest, htext, ?_⟩
    rintro rfl
    exact absurd hdigit (by decide)

theorem plain_digits (m : ℕ) : ∀ c ∈ digits m, Text.isPlain c = true := by
  unfold digits
  split
  · exact (by decide : Text.Plain "inf")
  · obtain ⟨first, rest, htext, hdigit, hrest⟩ := exists_text_shortest m
    have hplain {c : Char} (hc : IsDigit c) : Text.isPlain c = true :=
      Text.isPlain_of_isDigit (by simpa [Char.isDigit, IsDigit, Char.le_def] using hc)
    rw [htext]
    refine List.forall_mem_cons.mpr ⟨hplain hdigit, fun c hc => ?_⟩
    rcases hrest c hc with hc | rfl
    · exact hplain hc
    · decide

theorem text_shortest_ne_inf (m : ℕ) : (shortest m).text ≠ ['i', 'n', 'f'] := by
  intro hinf
  obtain ⟨first, rest, htext, hdigit, -⟩ := exists_text_shortest m
  obtain ⟨rfl, -⟩ := List.cons.inj (htext.symm.trans hinf)
  exact absurd hdigit (by decide)

theorem digits_injective (hm : m ≤ infinity) (hn : n ≤ infinity) (h : digits m = digits n) :
    m = n := by
  unfold digits at h
  split at h <;> split at h
  · rename_i hinfinite hinfinite'
    rw [hinfinite, hinfinite']
  · exact absurd h.symm (text_shortest_ne_inf n)
  · exact absurd h (text_shortest_ne_inf m)
  · rename_i hfinite hfinite'
    have hread : ofMagnitude m = ofMagnitude n := by
      rw [← ofNumeral_text_shortest (Nat.lt_of_le_of_ne hm hfinite), h,
        ofNumeral_text_shortest (Nat.lt_of_le_of_ne hn hfinite')]
    rw [← magnitude_ofMagnitude hm, hread, magnitude_ofMagnitude hn]

/-! ## Texts -/

theorem isNegative_of_sign_append {m n : ℕ} (h : x.sign ++ digits m = y.sign ++ digits n)
    (hx : x.isNegative = true) : y.isNegative = true := by
  cases hy : y.isNegative with
  | true => rfl
  | false =>
      obtain ⟨first, rest, hn, hfirst⟩ := head_digits n
      rw [sign, sign, hx, hy, if_pos rfl, if_neg Bool.false_ne_true, hn] at h
      exact absurd (List.cons.inj h).1.symm hfirst

theorem eq_of_render (hx : x.isNaN = false) (hy : y.isNaN = false) (h : render x = render y) :
    x = y := by
  have htexts := congrArg String.toList h
  rw [toList_render_of_not_nan hx, toList_render_of_not_nan hy] at htexts
  have hsign : x.isNegative = y.isNegative := Bool.eq_iff_iff.mpr
    ⟨isNegative_of_sign_append htexts, isNegative_of_sign_append htexts.symm⟩
  have hdigits : digits x.magnitude = digits y.magnitude := by
    rw [sign, sign, hsign] at htexts
    exact List.append_cancel_left htexts
  exact eq_of_sign_of_magnitude hsign
    (digits_injective (magnitude_le_infinity hx) (magnitude_le_infinity hy) hdigits)

theorem plain_render (x : Double) : Text.Plain (render x) := by
  cases hx : x.isNaN with
  | true =>
      rw [render, if_pos hx]
      decide
  | false =>
      rw [Text.Plain, toList_render_of_not_nan hx]
      refine List.forall_mem_append.mpr ⟨?_, plain_digits _⟩
      unfold sign
      split
      · exact (by decide : Text.Plain "-")
      · exact List.forall_mem_nil _

/-- All doubles but the NaNs can be told from their texts. -/
theorem legible : Legible (fun x : Double => x.isNaN = false) where
  eq_of_render := eq_of_render
  no_newline _ := (plain_render _).newline_notMem

end LoxBytecode.Double
