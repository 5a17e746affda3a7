import LoxBytecode.Cursor.Stream

/-!
# The stream behind a cursor

`nextSound` and `readAll` read the same stream: what `readAll` lists is the errors
that `nextSound` passes, the token it stops at, and, unless that is the end of the
text, what `readAll` lists from there on.  The end of the text is read over and over
from the place where it was first found, so that nothing ever stands behind it.
-/

namespace LoxBytecode.Cursor

/-! ## Kinds of the tokens that are read -/

theorem ofWord_ne_eof (word : List Char) : Token.Kind.ofWord word ≠ .eof := by
  have hkeywords : ∀ entry ∈ Token.Kind.keywords, entry.2 ≠ .eof := by decide
  unfold Token.Kind.ofWord
  cases hlookup : Token.Kind.keywords.lookup (String.ofList word) with
  | none => simp
  | some kind =>
      obtain ⟨before, after, hsplit, -⟩ := List.lookup_eq_some_iff.1 hlookup
      exact hkeywords (String.ofList word, kind) (by simp [hsplit])

theorem ofMark?_ne_eof (first : Char) : Token.Kind.ofMark? first ≠ some .eof := by
  unfold Token.Kind.ofMark?
  split <;> simp

theorem ofExtensibleMark?_ne_eof {first : Char} {alone extended : Token.Kind}
    (h : Token.Kind.ofExtensibleMark? first = some (alone, extended)) :
    alone ≠ .eof ∧ extended ≠ .eof := by
  unfold Token.Kind.ofExtensibleMark? at h
  split at h <;> cases h <;> decide

theorem continueFrom_kind_ne_eof (c : Cursor) (first : Char) :
    (c.continueFrom first).1.kind ≠ .eof := by
  unfold continueFrom
  split
  · exact ofWord_ne_eof _
  · split
    · simp [number, token]
    · split
      · unfold string
        dsimp only
        split <;> simp [errorToken, token]
      · split
        · rename_i kind hmark
          rintro rfl
          exact ofMark?_ne_eof first hmark
        · rename_i hextensible
          have hkinds := ofExtensibleMark?_ne_eof hextensible
          split
          · exact hkinds.2
          · exact hkinds.1
        · simp [errorToken]

/-! ## The end of the text -/

theorem skipLayout_of_rest_nil {c : Cursor} (h : c.rest = []) : c.skipLayout = c := by
  simp [skipLayout, h, leadingLayout, consume]

/-- Where the end of the text has been read, it is read again from the same place. -/
theorem nextToken_of_eof {c : Cursor} (h : c.nextToken.1.kind = .eof) :
    c.nextToken.2.nextToken = c.nextToken := by
  have hend : c.skipLayout.mark.rest = [] := by
    unfold nextToken at h
    dsimp only at h
    split at h
    · assumption
    · exact absurd h (continueFrom_kind_ne_eof _ _)
  have hstay : c.skipLayout.mark.skipLayout.mark = c.skipLayout.mark := by
    rw [skipLayout_of_rest_nil hend]
    rfl
  have hhere : c.nextToken = (c.skipLayout.mark.token .eof, c.skipLayout.mark) := by
    unfold nextToken
    simp only [hend]
  rw [hhere, nextToken]
  simp only [hstay, hend]

theorem readAll_of_eof {c : Cursor} (h : c.nextToken.1.kind = .eof) :
    c.readAll = ([c.nextToken.1], c.nextToken.2) := by
  rw [readAll, dif_pos h]

theorem readAll_of_ne_eof {c : Cursor} (h : c.nextToken.1.kind ≠ .eof) :
    c.readAll.1 = c.nextToken.1 :: c.nextToken.2.readAll.1 := by
  rw [readAll, dif_neg h]

/-- The stream ends with the end of the text, which stands nowhere else in it. -/
theorem readAll_eq_append (c : Cursor) :
    ∃ body stop, c.readAll.1 = body ++ [stop] ∧ stop.kind = .eof ∧ ∀ t ∈ body, t.kind ≠ .eof := by
  fun_induction readAll c with
  | case1 c heof => exact ⟨[], c.nextToken.1, rfl, heof, by simp⟩
  | case2 c hmore later ih =>
      obtain ⟨body, stop, hsplit, hstop, hbody⟩ := ih
      refine ⟨c.nextToken.1 :: body, stop, ?_, hstop, ?_⟩
      · rw [List.cons_append, ← hsplit]
      · exact List.forall_mem_cons.2 ⟨hmore, hbody⟩

/-! ## Up to the next sound token -/

theorem nextSound_of_sound {c : Cursor} (h : c.nextToken.1.kind ≠ .error) :
    c.nextSound = ([], c.nextToken) := by
  rw [nextSound, dif_neg h]

theorem error_of_mem_nextSound {c : Cursor} {t : Token} (h : t ∈ c.nextSound.1) :
    t.kind = .error := by
  fun_induction nextSound c with
  | case1 c herror later ih =>
      rcases List.mem_cons.mp h with rfl | h
      · exact herror
      · exact ih h
  | case2 c hsound => simp at h

/-- What is passed on the way to the next sound token is all errors. -/
theorem filter_nextSound (c : Cursor) : c.nextSound.1.filter (·.kind ≠ .error) = [] := by
  rw [List.filter_eq_nil_iff]
  intro t ht
  simp [error_of_mem_nextSound ht]

theorem nextSound_kind_ne_error (c : Cursor) : c.nextSound.2.1.kind ≠ .error := by
  fun_induction nextSound c with
  | case1 c herror later ih => exact ih
  | case2 c hsound => exact hsound

/-- If the next sound token is the end of the text, it is read again behind it. -/
theorem nextToken_of_nextSound_eof {c : Cursor} (h : c.nextSound.2.1.kind = .eof) :
    c.nextSound.2.2.nextToken = c.nextSound.2 := by
  fun_induction nextSound c with
  | case1 c herror later ih => exact ih h
  | case2 c hsound => exact nextToken_of_eof h

theorem readAll_eq_nextSound (c : Cursor) :
    c.readAll.1 = c.nextSound.1 ++ c.nextSound.2.1 ::
      if c.nextSound.2.1.kind = .eof then [] else c.nextSound.2.2.readAll.1 := by
  fun_induction nextSound c with
  | case1 c herror later ih =>
      rw [readAll_of_ne_eof (by rw [herror]; decide), ih]
      rfl
  | case2 c hsound =>
      by_cases heof : c.nextToken.1.kind = .eof
      · rw [readAll_of_eof heof, if_pos heof]
        rfl
      · rw [readAll_of_ne_eof heof, if_neg heof]
        rfl

end LoxBytecode.Cursor
