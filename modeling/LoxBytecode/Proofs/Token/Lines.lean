import LoxBytecode.Proofs.Token.Listing

/-!
# The lines of a token listing

The entries of a listing stand one below the other, and an entry shows the text of its token as it
is.  So the lines of a listing are the lines of its entries, and an entry has one line more for
every newline in the text of its token.  No token but a string literal has any.  A listing has one
line for each token, then, as long as no string literal reaches over the end of a line; where one
does, there are more lines than tokens, and they are no entries any more.
-/

namespace LoxBytecode

/-! ## Lines of a text -/

namespace Text

variable {mark : Char} {pieces : List (List Char)}

theorem length_splitOn (mark : Char) (text : List Char) :
    (text.splitOn mark).length = text.count mark + 1 := by
  induction text with
  | nil => rfl
  | cons c text ih =>
      rw [List.splitOn_cons_eq_if_modifyHead, List.count_cons]
      split
      · rw [List.length_cons, ih]
      · rw [List.length_modifyHead, ih, Nat.add_zero]

/-- Pieces that are joined by marks may hold marks of their own, and are taken apart there too. -/
theorem splitOn_intercalate_eq_flatMap (hne : pieces ≠ []) :
    ([mark].intercalate pieces).splitOn mark = pieces.flatMap (·.splitOn mark) := by
  induction pieces with
  | nil => exact absurd rfl hne
  | cons piece later ih =>
      cases later with
      | nil => simp
      | cons next later =>
          have hlater := ih (List.cons_ne_nil next later)
          rw [List.intercalate_cons_cons, List.append_assoc, List.singleton_append,
            List.splitOn_append_cons_self, hlater, ← List.flatMap_cons]

theorem length_flatMap_splitOn (mark : Char) (pieces : List (List Char)) :
    (pieces.flatMap (·.splitOn mark)).length = pieces.length + pieces.flatten.count mark := by
  induction pieces with
  | nil => rfl
  | cons piece later ih =>
      rw [List.flatMap_cons, List.length_append, length_splitOn, ih, List.flatten_cons,
        List.count_append, List.length_cons]
      omega

/-- Pieces stay whole just where they hold no mark. -/
theorem flatMap_splitOn_eq_self_iff :
    pieces.flatMap (·.splitOn mark) = pieces ↔ pieces.flatten.count mark = 0 := by
  constructor
  · intro h
    have hlength := congrArg List.length h
    rw [length_flatMap_splitOn] at hlength
    omega
  · intro h
    have hwhole : ∀ piece ∈ pieces, piece.splitOn mark = [piece] := by
      intro piece hpiece
      refine List.splitOn_eq_singleton fun hmark => List.count_eq_zero.mp h ?_
      exact List.mem_flatten_of_mem hpiece hmark
    rw [List.flatMap_def, List.map_congr_left hwhole, ← List.flatMap_def, List.flatMap_singleton']

end Text

/-! ## Newlines in entries -/

namespace Token

variable {source : List Char} {t : Token}

theorem Kind.newline_notMem_name (kind : Kind) : '\n' ∉ kind.name.toList := by
  cases kind <;> decide

/-- An entry has the newlines of the text that it shows, and no others. -/
theorem count_newline_listingEntry (t : Token) (previousLine : Nat) :
    (t.listingEntry previousLine).toList.count '\n' = t.shownText.count '\n' := by
  have hname := List.count_eq_zero.mpr t.kind.newline_notMem_name
  have hnumber := List.count_eq_zero.mpr
    (Text.newline_notMem_alignRight (by decide : '0' ≠ '\n') 4 t.line)
  unfold listingEntry
  dsimp only
  split <;> simp [hname, hnumber]

theorem count_newline_listingEntries (ts : List Token) (previousLine : Nat) :
    ((listingEntries previousLine ts).map String.toList).flatten.count '\n' =
      (ts.flatMap shownText).count '\n' := by
  induction ts generalizing previousLine with
  | nil => rfl
  | cons t later ih =>
      rw [listingEntries, List.map_cons, List.flatten_cons, List.count_append,
        count_newline_listingEntry, ih, List.flatMap_cons, List.count_append]

theorem shownText_of_string (h : t ∈ tokens source) (hkind : t.kind = .string) :
    t.shownText = t.lexeme := by
  obtain ⟨-, hlisted⟩ := shows_of_mem_tokens h
  rw [hkind] at hlisted
  exact (congrArg Listed.lexeme hlisted).symm

/-- Of all tokens only string literals reach over the end of a line. -/
theorem newline_notMem_shownText (h : t ∈ tokens source) (hkind : t.kind ≠ .string) :
    '\n' ∉ t.shownText := by
  obtain ⟨_, _, hreads⟩ := exists_readsAs_of_mem h
  cases hreads with
  | eof _ _ hlexeme _ _ hmessage =>
      rw [shownText_of_message hmessage, hlexeme]
      exact List.not_mem_nil
  | lexeme _ _ hkinds _ _ hmessage =>
      rw [shownText_of_message hmessage]
      intro hmem
      have hspells : Spells t.kind t.lexeme := (hkinds t.kind).mpr rfl
      exact hkind (hspells.eq_string_of_foreign hmem (by decide) (by decide) (by decide))
  | unterminated _ _ hfault =>
      rw [hfault.shownText_eq]
      decide
  | unexpected _ _ _ hfault =>
      rw [hfault.shownText_eq]
      decide

/-- The text of the string literals among some tokens. -/
def literalText (ts : List Token) : List Char := (ts.filter (·.kind = .string)).flatMap lexeme

theorem count_newline_shownText {ts : List Token} (hts : ∀ t ∈ ts, t ∈ tokens source) :
    (ts.flatMap shownText).count '\n' = (literalText ts).count '\n' := by
  unfold literalText
  induction ts with
  | nil => rfl
  | cons t later ih =>
      obtain ⟨ht, hlater⟩ := List.forall_mem_cons.mp hts
      rw [List.flatMap_cons, List.count_append, ih hlater]
      by_cases hkind : t.kind = .string
      · rw [List.filter_cons_of_pos (by simpa using hkind), List.flatMap_cons, List.count_append,
          shownText_of_string ht hkind]
      · rw [List.filter_cons_of_neg (by simpa using hkind),
          List.count_eq_zero.mpr (newline_notMem_shownText ht hkind), Nat.zero_add]

end Token

/-! ## The lines of a listing -/

theorem length_listingEntries (ts : List Token) (previousLine : Nat) :
    (listingEntries previousLine ts).length = ts.length := by
  induction ts generalizing previousLine with
  | nil => rfl
  | cons t later ih => rw [listingEntries, List.length_cons, ih, List.length_cons]

theorem splitOn_describeTokens (source : List Char) :
    (describeTokens source).toList.splitOn '\n' =
      ((listingEntries 0 (tokens source)).map String.toList).flatMap (·.splitOn '\n') := by
  have hne : (listingEntries 0 (tokens source)).map String.toList ≠ [] := by
    have htokens : tokens source ≠ [] := Cursor.readAll_ne_nil _
    rw [← List.length_pos_iff, List.length_map, length_listingEntries]
    exact List.length_pos_iff.mpr htokens
  rw [describeTokens, String.toList_intercalate]
  exact Text.splitOn_intercalate_eq_flatMap hne

/-- **The lines of a listing.**  They are the lines of its entries: one for each token, and one more
for each newline in a string literal.  So a listing has one line for each token, the entry of that
token, just where no string literal of the source text reaches over the end of a line. -/
theorem describeTokens_lines (source : List Char) :
    let lines := (describeTokens source).toList.splitOn '\n'
    let entries := (listingEntries 0 (tokens source)).map String.toList
    let Inline := ∀ t ∈ tokens source, t.kind = .string → '\n' ∉ t.lexeme
    lines = entries.flatMap (·.splitOn '\n') ∧
      lines.length = (tokens source).length + (Token.literalText (tokens source)).count '\n' ∧
      (lines.length = (tokens source).length ↔ Inline) ∧ (lines = entries ↔ Inline) := by
  intro lines entries Inline
  have hlines : lines = entries.flatMap (·.splitOn '\n') := splitOn_describeTokens source
  have hcount : entries.flatten.count '\n' = (Token.literalText (tokens source)).count '\n' :=
    (Token.count_newline_listingEntries _ 0).trans
      (Token.count_newline_shownText fun _ ht => ht)
  have hlength : lines.length =
      (tokens source).length + (Token.literalText (tokens source)).count '\n' := by
    rw [hlines, Text.length_flatMap_splitOn, hcount, List.length_map, length_listingEntries]
  have hinline : (Token.literalText (tokens source)).count '\n' = 0 ↔ Inline := by
    simp [List.count_eq_zero, Token.literalText, Inline]
  refine ⟨hlines, hlength, ?_, ?_⟩
  · rw [← hinline, hlength]
    omega
  · rw [← hinline, ← hcount, hlines]
    exact Text.flatMap_splitOn_eq_self_iff

/-- Two tokens on three lines: the string literal takes two of them, and neither is its entry. -/
theorem describeTokens_lines_literal_over_lines :
    let source := "\"a\nb\"".toList
    (tokens source).map Token.kind = [.string, .eof] ∧
      (describeTokens source).toList.splitOn '\n' =
        ["0002 STRING '\"a".toList, "b\"'".toList, "   | EOF ''".toList] ∧
      ¬∀ source, ((describeTokens source).toList.splitOn '\n').length = (tokens source).length := by
  intro source
  have hkinds : (tokens source).map Token.kind = [.string, .eof] := by decide +kernel
  have hlines : (describeTokens source).toList.splitOn '\n' =
      ["0002 STRING '\"a".toList, "b\"'".toList, "   | EOF ''".toList] := by decide +kernel
  refine ⟨hkinds, hlines, fun hall => ?_⟩
  have htokens := congrArg List.length hkinds
  rw [List.length_map] at htokens
  have hlength := hall source
  rw [hlines, htokens] at hlength
  exact absurd hlength (by decide)

end LoxBytecode
