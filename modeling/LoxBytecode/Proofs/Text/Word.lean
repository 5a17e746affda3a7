import LoxBytecode.Text.Padded

/-!
# Words and columns

A listing sets words apart by blanks and lines by newlines, and it pads numbers.  None of these is
ever part of a word, so words and lines can be told from the text that they make up, and a number
from the column that it stands in, whatever stands behind it.
-/

namespace LoxBytecode

/-- A piece of text that blanks set apart from the rest of its line. -/
structure IsWord (text : List Char) : Prop where
  ne_nil : text ≠ []
  no_blank : ' ' ∉ text
  no_newline : '\n' ∉ text

theorem isWord_toDigits (n : Nat) : IsWord (Nat.toDigits 10 n) := by
  have hdigit {c : Char} (h : c ∈ Nat.toDigits 10 n) : c.isDigit = true :=
    Nat.isDigit_of_mem_toDigits (by decide) (by decide) h
  refine ⟨?_, fun h => absurd (hdigit h) (by decide), fun h => absurd (hdigit h) (by decide)⟩
  exact List.ne_nil_of_length_pos Nat.length_toDigits_pos

theorem toDigits_injective {m n : Nat} (h : Nat.toDigits 10 m = Nat.toDigits 10 n) : m = n := by
  have hread := congrArg (fun digits => Nat.ofDigitChars 10 digits 0) h
  simpa using hread

/-- A piece of text ends at the first character that cannot belong to it. -/
theorem span_append_cons {p : Char → Bool} {piece : List Char} {mark : Char}
    (hpiece : ∀ c ∈ piece, p c = true) (hmark : p mark = false) (rest : List Char) :
    (piece ++ mark :: rest).takeWhile p = piece ∧
      (piece ++ mark :: rest).dropWhile p = mark :: rest := by
  constructor
  · rw [List.takeWhile_append_of_pos hpiece]
    simp [hmark]
  · rw [List.dropWhile_append_of_pos hpiece]
    simp [hmark]

/-- A piece of text ends at the first mark behind it. -/
theorem span_mark {mark : Char} {piece : List Char} (h : mark ∉ piece) (rest : List Char) :
    (piece ++ mark :: rest).takeWhile (· != mark) = piece ∧
      (piece ++ mark :: rest).dropWhile (· != mark) = mark :: rest := by
  refine span_append_cons (fun c hc => ?_) (by simp) rest
  simpa using fun hmark : c = mark => h (hmark ▸ hc)

theorem eq_of_append_cons {mark : Char} {piece piece' rest rest' : List Char} (h : mark ∉ piece)
    (h' : mark ∉ piece') (hsame : piece ++ mark :: rest = piece' ++ mark :: rest') :
    piece = piece' ∧ rest = rest' := by
  obtain ⟨hpiece, hrest⟩ := span_mark h rest
  obtain ⟨hpiece', hrest'⟩ := span_mark h' rest'
  rw [hsame] at hpiece hrest
  exact ⟨hpiece.symm.trans hpiece', (List.cons.inj (hrest.symm.trans hrest')).2⟩

theorem dropWhile_blanks {word : List Char} (h : IsWord word) (n : Nat) (rest : List Char) :
    (List.replicate n ' ' ++ (word ++ rest)).dropWhile (· = ' ') = word ++ rest := by
  obtain ⟨c, word, rfl⟩ := List.exists_cons_of_ne_nil h.ne_nil
  have hc : c ≠ ' ' := fun hblank => h.no_blank (by simp [hblank])
  rw [List.dropWhile_append_of_pos (by simp)]
  simp [hc]

/-- A word begins behind the blanks in front of it, however many there are. -/
theorem eq_of_blanks_append {word word' rest rest' : List Char} {m n : Nat} (h : IsWord word)
    (h' : IsWord word')
    (hsame : List.replicate m ' ' ++ (word ++ ' ' :: rest) =
      List.replicate n ' ' ++ (word' ++ ' ' :: rest')) : word = word' ∧ rest = rest' := by
  have hwords := congrArg (List.dropWhile (· = ' ')) hsame
  rw [dropWhile_blanks h, dropWhile_blanks h'] at hwords
  exact eq_of_append_cons h.no_blank h'.no_blank hwords

/-- Lines behind the same header can be told from the text that they make up. -/
theorem eq_of_intercalate {header : String} {lines lines' : List String} (hne : lines ≠ [])
    (hne' : lines' ≠ []) (hlines : ∀ line ∈ lines, '\n' ∉ line.toList)
    (hlines' : ∀ line ∈ lines', '\n' ∉ line.toList)
    (h : "\n".intercalate (header :: lines) = "\n".intercalate (header :: lines')) :
    lines = lines' := by
  have hbehind : "\n".intercalate lines = "\n".intercalate lines' := by
    obtain ⟨line, later, rfl⟩ := List.exists_cons_of_ne_nil hne
    obtain ⟨line', later', rfl⟩ := List.exists_cons_of_ne_nil hne'
    rw [String.intercalate_cons_cons, String.intercalate_cons_cons] at h
    exact (String.append_right_inj _).mp h
  have hsplit := congrArg (fun text => text.toList.splitOn '\n') hbehind
  simp only [String.toList_intercalate] at hsplit
  rw [show "\n".toList = ['\n'] from rfl, List.splitOn_intercalate '\n' (by simpa using hlines)
    (by simpa using hne), List.splitOn_intercalate '\n' (by simpa using hlines')
    (by simpa using hne')] at hsplit
  exact (List.map_inj_right fun _ _ => String.toList_inj.mp).mp hsplit

namespace Text

/-! ## Columns -/

theorem toList_alignRight (width : Nat) (fill : Char) (text : String) :
    (alignRight width fill text).toList =
      List.replicate (width - text.length) fill ++ text.toList := String.toList_ofList

/-- A number in a column of its own stays on one line. -/
theorem newline_notMem_alignRight {fill : Char} (hfill : fill ≠ '\n') (width n : Nat) :
    '\n' ∉ (alignRight width fill n.repr).toList := by
  rw [toList_alignRight, Nat.toList_repr, List.mem_append, not_or]
  exact ⟨fun h => hfill (List.eq_of_mem_replicate h).symm, (isWord_toDigits n).no_newline⟩

/-- The number that a text begins with. -/
def leadingNumber (text : String) : Nat :=
  Nat.ofDigitChars 10 (text.toList.takeWhile Char.isDigit) 0

theorem isDigit_alignRight (width n : Nat) :
    ∀ c ∈ (alignRight width '0' (toString n)).toList, c.isDigit = true := by
  intro c hc
  rw [toList_alignRight, Nat.toString_eq_repr, Nat.toList_repr] at hc
  rcases List.mem_append.mp hc with hzero | hdigit
  · rw [List.eq_of_mem_replicate hzero]
    rfl
  · exact Nat.isDigit_of_mem_toDigits (by decide) (by decide) hdigit

theorem ofDigitChars_alignRight (width n : Nat) :
    Nat.ofDigitChars 10 (alignRight width '0' (toString n)).toList 0 = n := by
  rw [toList_alignRight, Nat.ofDigitChars_append, Nat.ofDigitChars_replicate_zero,
    Nat.toString_eq_repr, Nat.toList_repr, Nat.mul_zero, Nat.ofDigitChars_ten_toDigits]

/-- A number that is padded with zeros is read up to the blank behind it. -/
theorem leadingNumber_alignRight (width n : Nat) (behind : String) :
    leadingNumber (alignRight width '0' (toString n) ++ (" " ++ behind)) = n := by
  have htext : (alignRight width '0' (toString n) ++ (" " ++ behind)).toList =
      (alignRight width '0' (toString n)).toList ++ ' ' :: behind.toList := by
    simp
  obtain ⟨hdigits, -⟩ := span_append_cons (isDigit_alignRight width n)
    (by decide : Char.isDigit ' ' = false) behind.toList
  rw [leadingNumber, htext, hdigits, ofDigitChars_alignRight]

end Text

end LoxBytecode
