import LoxBytecode.Text.Decoding

/-!
# Bytes that cannot be decoded

Some bytes are no encoding of a text just where decoding them breaks off before their end, and what
has been decoded up to there is a text.  The flaw that is told of them begins at that place, and its
bytes are the ones that are there.
-/

namespace LoxBytecode.Text

variable {bytes : ByteArray} {position : Nat}

/-! ## One character -/

/-- Where a character can be decoded, its encoding is what stands there. -/
theorem extract_of_decodeChar? {c : Char} (h : bytes.utf8DecodeChar? position = some c) :
    bytes.extract position (position + c.utf8Size) = [c].utf8Encode := by
  have hinside := ByteArray.le_size_of_utf8DecodeChar?_eq_some h
  rw [ByteArray.utf8DecodeChar?_eq_utf8DecodeChar?_extract] at h
  rw [List.utf8Encode_singleton, String.toByteArray_utf8EncodeChar_of_utf8DecodeChar?_eq_some h,
    ByteArray.extract_extract, Nat.add_zero, Nat.min_eq_left hinside]

/-- The bytes from a place on, taken apart behind the character that can be decoded there. -/
theorem extract_append_of_decodeChar? {c : Char} {stop : Nat}
    (h : bytes.utf8DecodeChar? position = some c) (hstop : position + c.utf8Size ≤ stop) :
    bytes.extract position stop =
      [c].utf8Encode ++ bytes.extract (position + c.utf8Size) stop := by
  rw [← extract_of_decodeChar? h]
  exact ByteArray.extract_eq_extract_append_extract _ (Nat.le_add_right _ _) hstop

/-- Where no character can be decoded, no text begins. -/
theorem not_isValidUTF8_of_decodeChar? (hinside : position < bytes.size)
    (h : bytes.utf8DecodeChar? position = none) :
    ¬(bytes.extract position bytes.size).IsValidUTF8 := by
  rintro ⟨text, htext⟩
  rw [ByteArray.utf8DecodeChar?_eq_utf8DecodeChar?_extract, htext] at h
  cases text with
  | nil =>
      have hsize := congrArg ByteArray.size htext
      simp only [ByteArray.size_extract, List.utf8Encode_nil, ByteArray.size_empty] at hsize
      omega
  | cons c later => cases List.utf8DecodeChar?_utf8Encode_cons.symm.trans h

/-! ## All of them -/

theorem le_breakdown (bytes : ByteArray) (position : Nat) :
    position ≤ breakdown bytes position := by
  fun_induction breakdown bytes position with
  | case1 | case3 => exact Nat.le_refl _
  | case2 position _ c _ ih => exact Nat.le_of_add_right_le ih

/-- Decoding breaks off before the end just where there is no text. -/
theorem breakdown_lt_size_iff (h : position ≤ bytes.size) :
    breakdown bytes position < bytes.size ↔
      ¬(bytes.extract position bytes.size).IsValidUTF8 := by
  fun_induction breakdown bytes position with
  | case1 position hinside hnone =>
      exact iff_of_true hinside (not_isValidUTF8_of_decodeChar? hinside hnone)
  | case2 position hinside c hdecoded ih =>
      -- a character in front makes no difference
      have hbehind := ByteArray.le_size_of_utf8DecodeChar?_eq_some hdecoded
      rw [ih hbehind, extract_append_of_decodeChar? hdecoded hbehind,
        ByteArray.isValidUTF8_utf8Encode_singleton_append_iff]
  | case3 position houtside =>
      have hend : position = bytes.size := Nat.le_antisymm h (Nat.not_lt.mp houtside)
      subst hend
      refine iff_of_false houtside (not_not_intro ?_)
      rw [ByteArray.extract_same]
      exact ByteArray.isValidUTF8_empty

/-- What has been decoded when decoding breaks off is a text. -/
theorem isValidUTF8_extract_breakdown (h : position ≤ bytes.size) :
    (bytes.extract position (breakdown bytes position)).IsValidUTF8 := by
  fun_induction breakdown bytes position with
  | case1 | case3 =>
      rw [ByteArray.extract_same]
      exact ByteArray.isValidUTF8_empty
  | case2 position hinside c hdecoded ih =>
      rw [extract_append_of_decodeChar? hdecoded (le_breakdown bytes _),
        ByteArray.isValidUTF8_utf8Encode_singleton_append_iff]
      exact ih (ByteArray.le_size_of_utf8DecodeChar?_eq_some hdecoded)

/-! ## The flaw -/

theorem fitting_prefix (low high : UInt8) (count : Nat) (later : List UInt8) :
    fitting low high count later <+: later := by
  fun_induction fitting low high count later with
  | case1 _ _ count byte later _ ih => exact List.cons_prefix_cons.mpr ⟨rfl, ih⟩
  | case2 | case3 => exact List.nil_prefix

theorem bytes_flawAt_prefix (position : Nat) (later : List UInt8) :
    (flawAt position later).bytes <+: later := by
  unfold flawAt
  split
  · exact List.nil_prefix
  · split
    · exact List.cons_prefix_cons.mpr ⟨rfl, List.nil_prefix⟩
    · exact List.cons_prefix_cons.mpr ⟨rfl, fitting_prefix _ _ _ _⟩

theorem position_flawAt (position : Nat) (later : List UInt8) :
    (flawAt position later).position = position := by
  unfold flawAt
  split
  · rfl
  · split <;> rfl

theorem bytes_flawAt_ne_nil {later : List UInt8} (h : later ≠ []) (position : Nat) :
    (flawAt position later).bytes ≠ [] := by
  cases later with
  | nil => exact absurd rfl h
  | cons first later =>
      unfold flawAt
      dsimp only
      split <;> exact List.cons_ne_nil _ _

/-- **What cannot be decoded has a flaw.**  Bytes that are no encoding of a text have a flaw at a
place inside of them: what stands in front of it is the encoding of a text, and its bytes, one at
least, stand there. -/
theorem flaw_of_not_isValidUTF8 (h : ¬bytes.IsValidUTF8) :
    (bytes.extract 0 (flaw bytes).position).IsValidUTF8 ∧ (flaw bytes).bytes ≠ [] ∧
      (flaw bytes).bytes <+: bytes.data.toList.drop (flaw bytes).position := by
  have hbreaks : breakdown bytes 0 < bytes.size := by
    rw [breakdown_lt_size_iff (Nat.zero_le _), ByteArray.extract_zero_size]
    exact h
  have hplace : (flaw bytes).position = breakdown bytes 0 := position_flawAt _ _
  have hmore : bytes.data.toList.drop (breakdown bytes 0) ≠ [] := by
    rw [Ne, List.drop_eq_nil_iff, Nat.not_le]
    exact hbreaks
  rw [hplace]
  exact ⟨isValidUTF8_extract_breakdown (Nat.zero_le _), bytes_flawAt_ne_nil hmore _,
    bytes_flawAt_prefix _ _⟩

/-- The last character is cut off behind three of its bytes. -/
example : (flaw ⟨#[0x31, 0xf0, 0x9f, 0x98]⟩).text =
    "'utf-8' codec can't decode bytes in position 1-3: unexpected end of data" := by
  decide +kernel

end LoxBytecode.Text
